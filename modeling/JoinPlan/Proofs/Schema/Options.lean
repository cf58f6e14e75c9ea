import JoinPlan.Proofs.LastValue
import JoinPlan.Proofs.Schema.Faithful

/-!
# Options are written faithfully

An option with several forms is written in one of them, and that text has to be read as
the form it was written in: the first form that fits is taken, so none before it may fit.
A string, an object and an array fit no two forms of one option.  A junction holds the
options it lays over fields, so their induction is on how deep reading goes.
-/

namespace JoinPlan

open Json

/-! ### Keys, orders and batches -/

theorem faithful_uniqueKey :
    Faithful 0 .whole UniqueKey.decode fun key => some (UniqueKey.encode key) := by
  have hencode : OneOrMany.encode (fun column => some (Json.string column)) =
      fun key => some (UniqueKey.encode key) := by
    funext key
    cases key with
    | one column => rfl
    | many columns => rw [OneOrMany.encode, mapM_eq_some_map fun _ _ => rfl]; rfl
  rw [← hencode]
  exact (faithful_string .whole).oneOrMany fun _ => rfl

theorem faithful_ordering :
    Faithful 0 .whole OrderingOption.decode fun ordering =>
      some (OrderingOption.encode ordering) := by
  refine KeepsFields.faithful ?_ (by decide : ["column", "direction"].Nodup)
  intro levels fields ordering hleast hfields hread
  simp only [Option.bind_eq_bind, Option.bind_eq_some_iff, Option.some.injEq] at hread
  obtain ⟨column, hcolumn, direction, hdirection, rfl⟩ := hread
  have kcolumn := (faithful_string .whole).kept_required (member?_whole _) hleast hfields hcolumn
  have kdirection := (faithful_string .whole).kept_defaulted (member?_whole _) hleast hfields
    (kept_string .whole levels "ASC") hdirection
  exact ⟨_, rfl, rfl, kcolumn.bind (kdirection.bind (.nil _))⟩

theorem faithful_orderings :
    Faithful 0 .whole (listOf OrderingOption.decode) fun orderings =>
      some (.array (orderings.map OrderingOption.encode)) :=
  Faithful.list_write faithful_ordering

theorem faithful_batch :
    Faithful 0 .whole BatchOption.decode fun batch => some (BatchOption.encode batch) := by
  refine KeepsFields.faithful ?_ (by decide : ["thisKey", "parentKey"].Nodup)
  intro levels fields batch hleast hfields hread
  simp only [Option.bind_eq_bind, Option.bind_eq_some_iff, Option.some.injEq] at hread
  obtain ⟨thisKey, hthisKey, parentKey, hparentKey, rfl⟩ := hread
  have kthisKey := (faithful_string .whole).kept_required (member?_whole _) hleast hfields hthisKey
  have kparentKey := (faithful_string .whole).kept_required (member?_whole _) hleast hfields
    hparentKey
  exact ⟨_, rfl, rfl, kthisKey.bind (kparentKey.bind (.nil _))⟩

theorem faithful_junctionBatch :
    Faithful 0 .whole JunctionBatchOption.decode JunctionBatchOption.encode := by
  refine KeepsFields.faithful ?_ (by decide : ["thisKey", "parentKey", "sqlJoin"].Nodup)
  intro levels fields batch hleast hfields hread
  simp only [Option.bind_eq_bind, Option.bind_eq_some_iff, Option.some.injEq] at hread
  obtain ⟨thisKey, hthisKey, parentKey, hparentKey, sqlJoin, hsqlJoin, rfl⟩ := hread
  have kthisKey := (faithful_string .whole).kept_required (member?_whole _) hleast hfields hthisKey
  have kparentKey := (faithful_string .whole).kept_required (member?_whole _) hleast hfields
    hparentKey
  obtain ⟨written, hwritten, ksqlJoin⟩ := (faithful_template .whole).required (member?_whole _)
    hleast hfields hsqlJoin
  refine ⟨_, rfl, ?_, kthisKey.bind (kparentKey.bind (ksqlJoin.bind (.nil _)))⟩
  rw [JunctionBatchOption.encode, hwritten]
  rfl

theorem faithful_joins : Faithful 0 .whole decodeJoins encodeJoins := by
  intro levels value joins _ hvalue hread
  unfold decodeJoins at hread
  split at hread
  · rename_i first second
    obtain ⟨inner, rfl, -⟩ := hvalue.of_array
    simp only [Option.bind_eq_bind, Option.bind_eq_some_iff, Option.some.injEq] at hread
    obtain ⟨parent, hparent, child, hchild, rfl⟩ := hread
    obtain ⟨parentText, -, rfl⟩ := Option.map_eq_some_iff.mp hparent
    obtain ⟨childText, -, rfl⟩ := Option.map_eq_some_iff.mp hchild
    refine ⟨.array [.string parentText, .string childText], rfl, rfl, ?_, by simp⟩
    intro item hitem _
    simp only [List.mem_cons, List.not_mem_nil, or_false] at hitem
    rcases hitem with rfl | rfl <;> exact legible_string inner .whole _
  · contradiction

theorem encodeEntries_string (directions : List (String × String)) :
    encodeEntries (fun direction => some (.string direction)) directions =
      some (.object (Assoc.mapValues .string directions)) := by
  simp only [encodeEntries, Option.map_some]
  rw [mapM_eq_some_map fun _ _ => rfl, Option.map_some, Assoc.mapValues]

/-- A column is written as a string, a mapping as an object and a list as an array, so each
form is told from the others. -/
theorem faithful_orderBy :
    Faithful 0 .whole OrderByOption.decode fun order => some (OrderByOption.encode order) := by
  intro levels value order hleast hvalue hread
  rcases Option.or_eq_some_iff.mp hread with hcolumn | ⟨-, hread⟩
  · obtain ⟨name, -, rfl⟩ := Option.map_eq_some_iff.mp hcolumn
    exact ⟨.string name, rfl, rfl, legible_string levels .whole name, by simp⟩
  rcases Option.or_eq_some_iff.mp hread with hmapping | ⟨-, hlist⟩
  · obtain ⟨given, hgiven, rfl⟩ := Option.map_eq_some_iff.mp hmapping
    obtain ⟨members, hmembers, -⟩ := Option.bind_eq_some_iff.mp hgiven
    cases value with
    | object _ =>
        obtain ⟨inner, rfl, -⟩ := hvalue.of_object
        obtain ⟨written, hwritten, hreads, hlegible⟩ :=
          Kept.entries (fun entry (_ : entry ∈ Assoc.distinct given) =>
            kept_string .whole inner entry.2) member?_whole
        rw [encodeEntries_string] at hwritten
        obtain rfl := Json.object.inj (Option.some.inj hwritten)
        refine ⟨_, rfl, ?_, hlegible, by simp [OrderByOption.encode]⟩
        have hdistinct := Assoc.distinct_of_nodup (Assoc.nodup_keys_distinct given)
        simp only [OrderByOption.decode, OrderByOption.encode, hreads, hdistinct, string?,
          Option.map_none, Option.map_some, Option.none_or, Option.some_or]
    | _ => contradiction
  · obtain ⟨orderings, horderings, rfl⟩ := Option.map_eq_some_iff.mp hlist
    obtain ⟨written, hwritten, hwrites⟩ :=
      faithful_orderings levels value orderings hleast hvalue horderings
    obtain rfl := Option.some.inj hwritten
    refine ⟨_, rfl, hwrites.of_reads ?_⟩
    exact congrArg (Option.map OrderByOption.list) hwrites.reads

theorem faithful_sharedDirection :
    Faithful 0 .whole SortKeyOption.decodeKey fun key => some (SortKeyOption.encode key) := by
  refine KeepsFields.faithful_object ?_ (by decide : ["order", "key"].Nodup)
  intro levels fields key hleast hfields hread
  simp only [Option.bind_eq_bind, Option.bind_eq_some_iff, Option.some.injEq] at hread
  obtain ⟨direction, hdirection, columns, hcolumns, rfl⟩ := hread
  have kdirection := (faithful_string .whole).kept_required (member?_whole _) hleast hfields
    hdirection
  have kcolumns := faithful_uniqueKey.kept_required (member?_whole _) hleast hfields hcolumns
  exact ⟨_, rfl, rfl, kdirection.bind (kcolumns.bind (.nil _))⟩

/-- Columns that share a direction are written as an object and a list as an array. -/
theorem faithful_sortKey :
    Faithful 0 .whole SortKeyOption.decode fun key => some (SortKeyOption.encode key) := by
  intro levels value key hleast hvalue hread
  rcases Option.or_eq_some_iff.mp hread with hkey | ⟨-, hlist⟩
  · obtain ⟨written, hwritten, hwrites⟩ :=
      faithful_sharedDirection levels value key hleast hvalue hkey
    refine ⟨written, hwritten, hwrites.of_reads ?_⟩
    rw [SortKeyOption.decode, hwrites.reads, Option.some_or]
  · obtain ⟨orderings, horderings, rfl⟩ := Option.map_eq_some_iff.mp hlist
    obtain ⟨written, hwritten, hwrites⟩ :=
      faithful_orderings levels value orderings hleast hvalue horderings
    obtain rfl := Option.some.inj hwritten
    refine ⟨_, rfl, hwrites.of_reads ?_⟩
    exact congrArg (Option.map SortKeyOption.list) hwrites.reads

/-! ### Fields and junctions -/

theorem includedFields_eq (fields : List (String × FieldOptions)) :
    (includedFields fields).map .object = encodeEntries FieldOptions.encode fields := by
  rw [encodeEntries]
  congr 1
  induction fields with
  | nil => rfl
  | cons field rest ih =>
      rw [includedFields, List.mapM_cons, ih]
      cases field with
      | mk name options =>
          rw [includedField, FieldOptions.encode, Option.map_map]
          rfl

theorem includesMember_eq (includes : Option (Computed (List (String × FieldOptions)))) :
    includesMember includes =
      memberM "include" (Computed.encodeLiteral (encodeEntries FieldOptions.encode)) includes := by
  cases includes with
  | none => rw [includesMember, memberM]
  | some includes =>
      cases includes with
      | literal fields =>
          rw [includesMember, includesObject, memberM, Computed.encodeLiteral, ← includedFields_eq,
            Option.map_map]
          rfl
      | computed compute =>
          rw [includesMember, includesObject, memberM, Computed.encodeLiteral]
          rfl

def JunctionOptions.encode (junction : JunctionOptions) : Option Json :=
  junction.members.map .object

theorem junctionMember_eq (junction : Option JunctionOptions) :
    junctionMember junction = memberM "junction" JunctionOptions.encode junction := by
  cases junction with
  | none => rw [junctionMember, memberM]
  | some junction =>
      rw [junctionMember, memberM, JunctionOptions.encode, Option.map_map]
      rfl

theorem faithful_junction {included : Json → Option FieldOptions}
    (hincluded : Faithful 0 .whole included FieldOptions.encode) :
    Faithful 0 .whole (JunctionOptions.decode included) JunctionOptions.encode := by
  refine KeepsFields.faithful ?_ (by decide : (JunctionOptions.form .whole).names.Nodup)
  intro levels fields junction hleast hfields hread
  obtain ⟨sqlTable, hsqlTable, hread⟩ := Option.bind_eq_some_iff.mp hread
  obtain ⟨sqlJoins, hsqlJoins, hread⟩ := Option.bind_eq_some_iff.mp hread
  obtain ⟨sqlBatch, hsqlBatch, hread⟩ := Option.bind_eq_some_iff.mp hread
  obtain ⟨uniqueKey, huniqueKey, hread⟩ := Option.bind_eq_some_iff.mp hread
  obtain ⟨condition, hcondition, hread⟩ := Option.bind_eq_some_iff.mp hread
  obtain ⟨orderBy, horderBy, hread⟩ := Option.bind_eq_some_iff.mp hread
  obtain ⟨sortKey, hsortKey, hread⟩ := Option.bind_eq_some_iff.mp hread
  obtain ⟨includes, hincludes, hread⟩ := Option.bind_eq_some_iff.mp hread
  obtain rfl := Option.some.inj hread
  obtain ⟨writtenTable, hwrittenTable, ktable⟩ := (faithful_string .whole).computed.required
    (member?_whole _) hleast hfields hsqlTable
  obtain ⟨writtenJoins, hwrittenJoins, kjoins⟩ := faithful_joins.optional
    (member?_whole _) hleast hfields hsqlJoins
  obtain ⟨writtenBatch, hwrittenBatch, kbatch⟩ := faithful_junctionBatch.optional
    (member?_whole _) hleast hfields hsqlBatch
  have kkey := faithful_uniqueKey.kept_optional (member?_whole _) hleast hfields huniqueKey
  obtain ⟨writtenCondition, hwrittenCondition, kcondition⟩ := (faithful_template .whole).optional
    (member?_whole _) hleast hfields hcondition
  obtain ⟨writtenOrder, hwrittenOrder, korder⟩ := faithful_orderBy.computed.optional
    (member?_whole _) hleast hfields horderBy
  obtain ⟨writtenSortKey, hwrittenSortKey, ksortKey⟩ := faithful_sortKey.computed.optional
    (member?_whole _) hleast hfields hsortKey
  have hdictionary : Faithful 0 .whole (dictionaryOf included)
      (encodeEntries FieldOptions.encode) := Faithful.dictionary hincluded member?_whole
  obtain ⟨writtenIncludes, hwrittenIncludes, kincludes⟩ := hdictionary.computed.optional
    (member?_whole _) hleast hfields hincludes
  refine ⟨_, rfl, ?_, ktable.bind (kjoins.bind (kbatch.bind (kkey.bind (kcondition.bind
    (korder.bind (ksortKey.bind (kincludes.bind (.nil _))))))))⟩
  simp only [JunctionOptions.encode, JunctionOptions.members, Computed.encode_eq, includesMember_eq,
    hwrittenTable, hwrittenJoins, hwrittenBatch, hwrittenCondition, hwrittenOrder, hwrittenSortKey,
    hwrittenIncludes, Option.bind_eq_bind, Option.bind_some, Option.map_some]
  simp

theorem faithful_options {included : Json → Option FieldOptions}
    (hincluded : Faithful 0 .whole included FieldOptions.encode) :
    KeepsFields 0 .whole FieldOptions.names (FieldOptions.ofFields included)
      FieldOptions.encode := by
  intro levels fields options hleast hfields hread
  rw [FieldOptions.ofFields] at hread
  obtain ⟨sqlColumn, hsqlColumn, hread⟩ := Option.bind_eq_some_iff.mp hread
  obtain ⟨sqlExpr, hsqlExpr, hread⟩ := Option.bind_eq_some_iff.mp hread
  obtain ⟨sqlDeps, hsqlDeps, hread⟩ := Option.bind_eq_some_iff.mp hread
  obtain ⟨sqlJoin, hsqlJoin, hread⟩ := Option.bind_eq_some_iff.mp hread
  obtain ⟨sqlBatch, hsqlBatch, hread⟩ := Option.bind_eq_some_iff.mp hread
  obtain ⟨junction, hjunction, hread⟩ := Option.bind_eq_some_iff.mp hread
  obtain ⟨condition, hcondition, hread⟩ := Option.bind_eq_some_iff.mp hread
  obtain ⟨orderBy, horderBy, hread⟩ := Option.bind_eq_some_iff.mp hread
  obtain ⟨sortKey, hsortKey, hread⟩ := Option.bind_eq_some_iff.mp hread
  obtain ⟨limit, hlimit, hread⟩ := Option.bind_eq_some_iff.mp hread
  obtain ⟨sqlPaginate, hsqlPaginate, hread⟩ := Option.bind_eq_some_iff.mp hread
  obtain ⟨ignoreTable, hignoreTable, hread⟩ := Option.bind_eq_some_iff.mp hread
  obtain ⟨ignoreAll, hignoreAll, hread⟩ := Option.bind_eq_some_iff.mp hread
  obtain rfl := Option.some.inj hread
  have kcolumn := (faithful_string .whole).kept_optional (member?_whole _) hleast hfields hsqlColumn
  obtain ⟨writtenExpr, hwrittenExpr, kexpr⟩ := (faithful_template .whole).optional
    (member?_whole _) hleast hfields hsqlExpr
  have kdeps := faithful_strings.kept_optional (member?_whole _) hleast hfields hsqlDeps
  obtain ⟨writtenJoin, hwrittenJoin, kjoin⟩ := (faithful_template .whole).optional
    (member?_whole _) hleast hfields hsqlJoin
  have kbatch := faithful_batch.kept_optional (member?_whole _) hleast hfields hsqlBatch
  obtain ⟨writtenJunction, hwrittenJunction, kjunction⟩ := (faithful_junction hincluded).optional
    (member?_whole _) hleast hfields hjunction
  obtain ⟨writtenCondition, hwrittenCondition, kcondition⟩ := (faithful_template .whole).optional
    (member?_whole _) hleast hfields hcondition
  obtain ⟨writtenOrder, hwrittenOrder, korder⟩ := faithful_orderBy.computed.optional
    (member?_whole _) hleast hfields horderBy
  obtain ⟨writtenSortKey, hwrittenSortKey, ksortKey⟩ := faithful_sortKey.computed.optional
    (member?_whole _) hleast hfields hsortKey
  obtain ⟨writtenLimit, hwrittenLimit, klimit⟩ := (faithful_count .whole).computed.optional
    (member?_whole _) hleast hfields hlimit
  have kflag {key : String} {value : Bool}
      (hflag : defaulted bool? false key fields = some value) :=
    (faithful_bool .whole).kept_defaulted (member?_whole _) hleast hfields
      (kept_bool .whole levels false) hflag
  refine ⟨_, rfl, ?_, kcolumn.bind (kexpr.bind (kdeps.bind (kjoin.bind (kbatch.bind (kjunction.bind
    (kcondition.bind (korder.bind (ksortKey.bind (klimit.bind ((kflag hsqlPaginate).bind
    ((kflag hignoreTable).bind ((kflag hignoreAll).bind (.nil _)))))))))))))⟩
  simp only [FieldOptions.encode, FieldOptions.members, Computed.encode_eq, junctionMember_eq,
    hwrittenExpr, hwrittenJoin, hwrittenJunction, hwrittenCondition, hwrittenOrder, hwrittenSortKey,
    hwrittenLimit, Option.bind_eq_bind, Option.bind_some, Option.map_some]
  simp

/-- Options are written faithfully however deep junctions nest in them: those that a junction
lays over a field are read with one level less. -/
theorem faithful_optionsWithin (nesting : Nat) :
    Faithful 0 .whole (FieldOptions.decodeWithin nesting) FieldOptions.encode := by
  induction nesting with
  | zero =>
      intro levels value options _ _ hread
      contradiction
  | succ nesting ih =>
      exact KeepsFields.faithful (faithful_options ih) (by decide : FieldOptions.names.Nodup)

end JoinPlan
