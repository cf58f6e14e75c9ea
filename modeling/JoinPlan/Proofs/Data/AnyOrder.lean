import JoinPlan.Proofs.Data.Independence

/-!
# Boundaries in any order

The boundaries of a level are spliced one after the other into the same objects, each
reading its parent keys from the data as the others left it.  The order makes no
difference when no child of a table is fetched into the field or the key of a sibling; two
concrete types that batch a field of one name are such siblings.
-/

namespace JoinPlan.Plan

open Json (Path Apart)
open Json.Pointer (ofPath)

/-! ### Writing members in either order -/

section Writing

variable {name other : String} {value another data : Json} {path second : Path}

theorem withMember_setChild (hne : name ≠ other) {object child : Json}
    (hother : (object.child? other).isSome) :
    withMember name value (object.setChild other child) =
      (withMember name value object).setChild other child := by
  cases object with
  | object members =>
      simp only [Json.setChild, withMember]
      rw [Assoc.put_insert_comm (Ne.symm hne) _ _ hother]
  | array items =>
      rw [Json.setChild]
      cases hindex : Json.index? other <;> simp [withMember, Json.setChild, hindex]
  | null | bool | number | string => rfl

theorem withMember_modifyAt (hne : name ≠ other) (object : Json) (change : Json → Json)
    (rest : Path) :
    withMember name value (object.modifyAt change (other :: rest)) =
      (withMember name value object).modifyAt change (other :: rest) := by
  simp only [Json.modifyAt, child?_withMember_of_ne hne]
  cases hchild : object.child? other with
  | none => rfl
  | some child => exact withMember_setChild hne (Option.isSome_of_eq_some hchild)

theorem withMember_comm (hne : name ≠ other) (object : Json) :
    withMember name value (withMember other another object) =
      withMember other another (withMember name value object) := by
  cases object with
  | object members => simp only [withMember, Assoc.insert_comm hne]
  | array | null | bool | number | string => rfl

/-- A member is written at or above a place where another is. -/
theorem modifyAt_withMember_comm_append {rest : Path}
    (h : Apart [name] (rest ++ [other])) :
    (data.modifyAt (withMember name value) path).modifyAt (withMember other another)
        (path ++ rest) =
      (data.modifyAt (withMember other another) (path ++ rest)).modifyAt
        (withMember name value) path := by
  rw [Json.modifyAt_append, Json.modifyAt_append, Json.modifyAt_modifyAt, Json.modifyAt_modifyAt]
  congr 1
  funext object
  cases rest with
  | nil =>
      have hne : name ≠ other := by
        rintro rfl
        exact h.1 List.prefix_rfl
      exact (withMember_comm hne object).symm
  | cons token rest =>
      have hne : name ≠ token := by
        rintro rfl
        exact h.1 (List.cons_prefix_cons.mpr ⟨rfl, List.nil_prefix⟩)
      exact (withMember_modifyAt hne object _ rest).symm

theorem modifyAt_withMember_comm (h : Apart (path ++ [name]) (second ++ [other])) :
    (data.modifyAt (withMember name value) path).modifyAt (withMember other another) second =
      (data.modifyAt (withMember other another) second).modifyAt (withMember name value)
        path := by
  by_cases hbelow : path <+: second
  · obtain ⟨rest, rfl⟩ := hbelow
    rw [List.append_assoc, Json.apart_append_iff] at h
    exact modifyAt_withMember_comm_append h
  · by_cases habove : second <+: path
    · obtain ⟨rest, rfl⟩ := habove
      rw [List.append_assoc, Json.apart_append_iff] at h
      exact (modifyAt_withMember_comm_append h.symm).symm
    · exact Json.modifyAt_comm ⟨hbelow, habove⟩

theorem putAll_modifyAt_comm {values : List (Path × Json)}
    (h : ∀ entry ∈ values, Apart (entry.1 ++ [name]) (second ++ [other])) :
    putAll name values (data.modifyAt (withMember other another) second) =
      (putAll name values data).modifyAt (withMember other another) second := by
  induction values generalizing data with
  | nil => rfl
  | cons entry rest ih =>
      rw [List.forall_mem_cons] at h
      calc putAll name (entry :: rest) (data.modifyAt (withMember other another) second)
          = putAll name rest ((data.modifyAt (withMember other another) second).modifyAt
              (withMember name entry.2) entry.1) := rfl
        _ = putAll name rest ((data.modifyAt (withMember name entry.2) entry.1).modifyAt
              (withMember other another) second) := by rw [modifyAt_withMember_comm h.1]
        _ = (putAll name (entry :: rest) data).modifyAt (withMember other another) second :=
            ih h.2

theorem putAll_comm {values others : List (Path × Json)}
    (h : ∀ entry ∈ values, ∀ second ∈ others,
      Apart (entry.1 ++ [name]) (second.1 ++ [other])) :
    putAll name values (putAll other others data) =
      putAll other others (putAll name values data) := by
  induction others generalizing data with
  | nil => rfl
  | cons second rest ih =>
      calc putAll name values (putAll other (second :: rest) data)
          = putAll name values (putAll other rest
              (data.modifyAt (withMember other second.2) second.1)) := rfl
        _ = putAll other rest (putAll name values
              (data.modifyAt (withMember other second.2) second.1)) :=
            ih fun entry hentry later hlater =>
              h entry hentry later (List.mem_cons_of_mem _ hlater)
        _ = putAll other rest ((putAll name values data).modifyAt
              (withMember other second.2) second.1) := by
            rw [putAll_modifyAt_comm fun entry hentry => h entry hentry second List.mem_cons_self]
        _ = putAll other (second :: rest) (putAll name values data) := rfl

end Writing

/-! ### Boundaries in either order -/

/-- The members that splicing a child touches in its parents: the field it writes and the
key it reads. -/
def TableInfo.members (info : TableInfo) : List String :=
  info.fieldName :: (info.batchKeys?.map fun keys => keys.2.fieldName).toList

theorem TableInfo.fieldName_mem_members (info : TableInfo) : info.fieldName ∈ info.members :=
  List.mem_cons_self

section Boundaries

variable {info : TableInfo} {thisKey parentKey : Column} {groups : Groups}

/-- The value of a field depends on nothing but the key of the parent. -/
theorem fieldValue_congr {first second : Json}
    (h : first.get? parentKey.fieldName = second.get? parentKey.fieldName) :
    fieldValue info parentKey groups first = fieldValue info parentKey groups second := by
  rw [fieldValue, fieldValue, keyOf?, keyOf?, h]

theorem at?_append_of_isObject {data object : Json} {path : Path}
    (hat : data.at? path = some object) (hobject : object.isObject = true) (name : String) :
    data.at? (path ++ [name]) = object.get? name := by
  obtain ⟨members, rfl⟩ := Json.exists_object_of_isObject hobject
  rw [Json.at?_append, hat, Option.bind_some, Json.at?_singleton]
  rfl

/-- Writing apart from the keys of some parents changes none of their values. -/
theorem fieldValues_parentsAt_congr {first second : Json} {paths : List Path}
    (houtline : ∀ path ∈ paths, Json.SameOutline first second path)
    (hkey : ∀ path ∈ paths,
      first.at? (path ++ [parentKey.fieldName]) = second.at? (path ++ [parentKey.fieldName])) :
    fieldValues info parentKey groups (parentsAt first paths) =
      fieldValues info parentKey groups (parentsAt second paths) := by
  induction paths with
  | nil => rfl
  | cons path rest ih =>
      rw [List.forall_mem_cons] at houtline hkey
      have hrest := ih houtline.2 hkey.2
      have hhead := houtline.1
      rw [Json.SameOutline] at hhead
      simp only [parentsAt, List.filterMap_cons] at hrest ⊢
      cases hfirst : first.at? path with
      | none =>
          have hsecond : second.at? path = none := by simpa [hfirst] using hhead.symm
          simpa [hfirst, hsecond] using hrest
      | some object =>
          obtain ⟨other, hsecond, houtlines⟩ : ∃ other, second.at? path = some other ∧
              other.outline = object.outline := by simpa [hfirst] using hhead.symm
          have hkind := Json.isObject_eq_of_outline_eq houtlines
          cases hobject : object.isObject with
          | false => simpa [hsecond, Option.filter, hkind, hobject] using hrest
          | true =>
              have hfound : (some object).filter Json.isObject = some object := by
                simp [Option.filter, hobject]
              have hother : (some other).filter Json.isObject = some other := by
                simp [Option.filter, hkind, hobject]
              have hsame : fieldValue info parentKey groups object =
                  fieldValue info parentKey groups other := by
                apply fieldValue_congr
                rw [← at?_append_of_isObject hfirst hobject,
                  ← at?_append_of_isObject hsecond (hkind.trans hobject)]
                exact hkey.1
              simp only [hsecond, hfound, hother, Option.map_some, fieldValues, hsame, hrest]

end Boundaries

/-- The data of a level when all its boundaries are spliced, if none fails. -/
def splicedData? (jobs : List (Located × Groups)) (data : Json) : Option Json :=
  (spliceLevel jobs data).toOption.map Prod.fst

section Jobs

variable {root : Table Node} {level : List Located} {found data : Json}
  {jobs others : List (Located × Groups)}

/-- The values a boundary puts into its parents. -/
def jobValues? (job : Located × Groups) (data : Json) : Option (List (Path × Json)) :=
  job.1.table.info.batchKeys?.bind fun keys =>
    (fieldValues job.1.table.info keys.2 job.2 (parentsAt data job.1.paths)).toOption

theorem splicedData?_cons {job : Located × Groups}
    (hjob : job.1.table.info.isBoundary = true ∧ job.1.Placed) :
    splicedData? (job :: jobs) data = (jobValues? job data).bind fun values =>
      splicedData? jobs (putAll job.1.table.info.fieldName values data) := by
  obtain ⟨boundary, groups⟩ := job
  obtain ⟨hboundary, hplaced⟩ := hjob
  obtain ⟨⟨thisKey, parentKey⟩, hkeys⟩ := Option.isSome_iff_exists.mp hboundary
  simp only [splicedData?, spliceLevel, splice_eq hkeys hplaced, jobValues?, hkeys,
    Option.bind_some]
  cases fieldValues boundary.table.info parentKey groups (parentsAt data boundary.paths) with
  | error error => rfl
  | ok values =>
      simp only [Except.map, Except.toOption, bind, Except.bind, Option.bind_some]
      cases spliceLevel jobs (putAll boundary.table.info.fieldName values data) <;> rfl

theorem fst_mem_of_jobValues? {job : Located × Groups} {values : List (Path × Json)}
    (h : jobValues? job data = some values) {entry : Path × Json} (hentry : entry ∈ values) :
    entry.1 ∈ job.1.paths := by
  obtain ⟨keys, -, hvalues⟩ := Option.bind_eq_some_iff.mp h
  cases hresult : fieldValues job.1.table.info keys.2 job.2 (parentsAt data job.1.paths) with
  | error error => simp [hresult, Except.toOption] at hvalues
  | ok found =>
      obtain rfl : found = values := by simpa [hresult, Except.toOption] using hvalues
      exact (fst_values_sublist hresult).subset (List.mem_map_of_mem hentry)

/-- What one boundary writes changes nothing for an independent one. -/
theorem jobValues?_putAll {job other : Located × Groups}
    (hindependent : Located.Independent TableInfo.members job.1 other.1)
    {values : List (Path × Json)} (hvalues : ∀ entry ∈ values, entry.1 ∈ other.1.paths) :
    jobValues? job (putAll other.1.table.info.fieldName values data) = jobValues? job data := by
  rw [jobValues?, jobValues?]
  cases hkeys : job.1.table.info.batchKeys? with
  | none => rfl
  | some keys =>
      have hkey : keys.2.fieldName ∈ job.1.table.info.members := by
        simp [TableInfo.members, hkeys]
      simp only [Option.bind_some]
      congr 1
      apply fieldValues_parentsAt_congr
      · intro path hpath
        apply outline_at?_putAll
        intro entry hentry hstart
        have hapart := (hindependent path hpath entry.1 (hvalues entry hentry)).1 _ hkey
        exact hapart.2 (hstart.trans (List.prefix_append _ _))
      · intro path hpath
        apply at?_putAll_of_apart
        intro entry hentry
        exact ((hindependent path hpath entry.1 (hvalues entry hentry)).1 _ hkey).symm

theorem splicedData?_swap {job other : Located × Groups}
    (hjob : job.1.table.info.isBoundary = true ∧ job.1.Placed)
    (hother : other.1.table.info.isBoundary = true ∧ other.1.Placed)
    (hindependent : Located.Independent TableInfo.members job.1 other.1) :
    splicedData? (job :: other :: jobs) data = splicedData? (other :: job :: jobs) data := by
  rw [splicedData?_cons hjob, splicedData?_cons hother]
  have hfirst : ∀ values, jobValues? job data = some values →
      splicedData? (other :: jobs) (putAll job.1.table.info.fieldName values data) =
        (jobValues? other data).bind fun more =>
          splicedData? jobs (putAll other.1.table.info.fieldName more
            (putAll job.1.table.info.fieldName values data)) := by
    intro values hvalues
    rw [splicedData?_cons hother,
      jobValues?_putAll hindependent.symm fun entry => fst_mem_of_jobValues? hvalues]
  have hsecond : ∀ more, jobValues? other data = some more →
      splicedData? (job :: jobs) (putAll other.1.table.info.fieldName more data) =
        (jobValues? job data).bind fun values =>
          splicedData? jobs (putAll job.1.table.info.fieldName values
            (putAll other.1.table.info.fieldName more data)) := by
    intro more hmore
    rw [splicedData?_cons hjob,
      jobValues?_putAll hindependent fun entry => fst_mem_of_jobValues? hmore]
  cases hvalues : jobValues? job data with
  | none =>
      cases hmore : jobValues? other data with
      | none => rfl
      | some more => simp [hsecond more hmore, hvalues]
  | some values =>
      cases hmore : jobValues? other data with
      | none => simp [hfirst values hvalues, hmore]
      | some more =>
          have hcomm : putAll other.1.table.info.fieldName more
                (putAll job.1.table.info.fieldName values data) =
              putAll job.1.table.info.fieldName values
                (putAll other.1.table.info.fieldName more data) := by
            apply putAll_comm
            intro entry hentry second hsecond
            exact (hindependent second.1 (fst_mem_of_jobValues? hvalues hsecond) entry.1
              (fst_mem_of_jobValues? hmore hentry)).2 _ (TableInfo.fieldName_mem_members _)
          simp only [Option.bind_some, hfirst values hvalues, hsecond more hmore, hvalues, hmore,
            hcomm]

theorem splicedData?_perm (hperm : jobs.Perm others)
    (hjobs : ∀ job ∈ jobs, job.1.table.info.isBoundary = true ∧ job.1.Placed)
    (hindependent : jobs.Pairwise fun first second =>
      Located.Independent TableInfo.members first.1 second.1) :
    splicedData? jobs data = splicedData? others data := by
  induction hperm generalizing data with
  | nil => rfl
  | cons job hrest ih =>
      rw [List.forall_mem_cons] at hjobs
      rw [splicedData?_cons hjobs.1, splicedData?_cons hjobs.1]
      congr 1
      funext values
      exact ih hjobs.2 hindependent.of_cons
  | swap first second rest =>
      rw [List.forall_mem_cons, List.forall_mem_cons] at hjobs
      exact splicedData?_swap hjobs.1 hjobs.2.1
        ((List.pairwise_cons.mp hindependent).1 first List.mem_cons_self)
  | trans hfirst hsecond ihfirst ihsecond =>
      have hmiddle := fun job hjob => hjobs job (hfirst.mem_iff.mpr hjob)
      have hpairs := (hfirst.pairwise_iff fun h => Located.Independent.symm h).mp hindependent
      exact (ihfirst hjobs hindependent).trans (ihsecond hmiddle hpairs)

/-- The boundaries of a level can be spliced in any order, when no child of a table in the
plan is fetched into the field or the key of a sibling. -/
theorem splice_any_order (hlevel : Level root level)
    (hseparated : ∀ table ∈ root.subtree, table.Separated TableInfo.members)
    (hjobs : jobs.map Prod.fst = levelBoundaries found level) (hperm : jobs.Perm others)
    (data : Json) :
    (spliceLevel jobs data).toOption.map Prod.fst =
      (spliceLevel others data).toOption.map Prod.fst := by
  have hpairs : (levelBoundaries found level).Pairwise (Located.Independent TableInfo.members) :=
    pairwise_levelBoundaries TableInfo.fieldName_mem_members hseparated hlevel.inPlan
      (hlevel.pairwise_separate TableInfo.fieldName_mem_members hseparated)
  rw [← hjobs, List.pairwise_map] at hpairs
  apply splicedData?_perm hperm _ hpairs
  intro job hjob
  have hmem : job.1 ∈ levelBoundaries found level := hjobs ▸ List.mem_map_of_mem hjob
  have hin := hlevel.boundary_inPlan hmem
  exact ⟨hin.1, hin.2.placed⟩

end Jobs

/-- A person fetched in a batch, by a key of the parent. -/
def batchedPerson (fieldName key : String) : Node :=
  .table
    ⟨plainInfo fieldName fieldName false (some (.batch (ownedColumn "id") (ownedColumn key))),
      [.column (ownedColumn "id")], []⟩

/-- Posts by users and comments by bots; the bot of a comment has a field of its own. -/
def feed (botField : String) : Table Node where
  info := plainInfo "feed" "feed" true none
  shared := [.column (ownedColumn "id")]
  typed :=
    [("Post", [batchedPerson "author" "user_id"]), ("Comment", [batchedPerson botField "bot_id"])]

/-- One post, by the user with number 7. -/
def feedData : Json :=
  .array [.object [("bot_id", .null), ("id", .number (.int 1)), ("user_id", .number (.int 7))]]

def feedLevel (botField : String) : List Located :=
  [⟨feed botField, objectsAt feedData "" (feed botField).info⟩]

/-- The boundaries of the feed, with the user that was fetched and no bots. -/
def feedJobs (botField : String) : List (Located × Groups) :=
  (levelBoundaries feedData (feedLevel botField)).zip
    [groupByKey (ownedColumn "id") [.object [("id", .number (.int 7))]], []]

theorem splice_any_order_feed :
    (∀ table ∈ (feed "bot").subtree, table.Separated TableInfo.members) ∧
      (feedJobs "bot").length = 2 ∧
      ((spliceLevel (feedJobs "bot") feedData).toOption.map Prod.fst).isSome = true ∧
      (spliceLevel (feedJobs "bot") feedData).toOption.map Prod.fst =
        (spliceLevel (feedJobs "bot").reverse feedData).toOption.map Prod.fst := by
  have hseparated : ∀ table ∈ (feed "bot").subtree, table.Separated TableInfo.members := by
    decide +kernel
  have hjobs : (feedJobs "bot").map Prod.fst = levelBoundaries feedData (feedLevel "bot") :=
    List.map_fst_zip (by decide +kernel)
  refine ⟨hseparated, by decide +kernel, by decide +kernel, ?_⟩
  exact splice_any_order (Level.root feedData) hseparated hjobs (List.reverse_perm _).symm
    feedData

/-- When the bot's field is called like the user's, the last boundary wins: it is the one
without a match, or the one whose row was fetched. -/
theorem exists_order_that_matters :
    ∃ root level found jobs others data, Level root level ∧
      jobs.map Prod.fst = levelBoundaries found level ∧ jobs.Perm others ∧
      (spliceLevel jobs data).toOption.map Prod.fst ≠
        (spliceLevel others data).toOption.map Prod.fst := by
  have hauthors :
      ((spliceLevel (feedJobs "author") feedData).toOption.map Prod.fst).map
          (fun data => (data.resolve? "/0/author").map Json.isNull) = some (some true) ∧
        ((spliceLevel (feedJobs "author").reverse feedData).toOption.map Prod.fst).map
          (fun data => (data.resolve? "/0/author").map Json.isNull) = some (some false) := by
    decide +kernel
  refine ⟨feed "author", feedLevel "author", feedData, feedJobs "author",
    (feedJobs "author").reverse, feedData, Level.root feedData,
    List.map_fst_zip (by decide +kernel), (List.reverse_perm _).symm, ?_⟩
  intro hsame
  rw [hsame, hauthors.2] at hauthors
  simp at hauthors

end JoinPlan.Plan
