import JoinPlan.Proofs.Data.Independence

/-!
# Complete objects

An object of a table is complete when it has a value for every field fetched in batches
and the objects of the children are complete as well.  Splicing a level gives its
boundaries their values; what is done afterwards happens inside the objects put there, so
it is enough that these become complete.
-/

namespace JoinPlan.Plan

open Json (Path Apart Outside SameOutline)
open Json.Pointer (ofPath)

/-- An object has all values that are fetched in batches, and so have the objects below. -/
inductive Complete : Table Node → Json → Prop
  | intro {table : Table Node} {object : Json}
      (filled : ∀ child ∈ table.tables, child.info.isBoundary = true →
        ∃ value, object.get? child.info.fieldName = some value)
      (below : ∀ child ∈ table.tables, ∀ value, object.get? child.info.fieldName = some value →
        ∀ inner ∈ child.info.objectsIn value, Complete child inner) :
      Complete table object

/-! ### What splicing a level leaves -/

/-- The boundaries write neither at the path nor above it. -/
def Untouched (boundaries : List Located) (path : Path) : Prop :=
  ∀ boundary ∈ boundaries, ∀ parent ∈ boundary.paths,
    ¬ parent ++ [boundary.table.info.fieldName] <+: path

/-- The objects fetched for a boundary are those of the values that its parents have. -/
structure Filled (data after : Json) (boundary fetched : Located) : Prop where
  table : fetched.table = boundary.table
  value : ∀ parent ∈ boundary.paths, (data.at? parent).any Json.isObject = true →
    ∃ value, after.at? (parent ++ [boundary.table.info.fieldName]) = some value ∧
      ∀ place ∈ boundary.table.info.places value,
        parent ++ boundary.table.info.fieldName :: place ∈ fetched.paths
  inside : ∀ path ∈ fetched.paths, ∃ parent ∈ boundary.paths, ∃ value,
    after.at? (parent ++ [boundary.table.info.fieldName]) = some value ∧
      ∃ place ∈ boundary.table.info.places value,
        path = parent ++ boundary.table.info.fieldName :: place

/-- What splicing changes the field of. -/
abbrev fieldOnly (info : TableInfo) : List String := [info.fieldName]

section Splice

variable {data between after : Json} {boundary fetched : Located} {groups : Groups}
  {jobs : List (Located × Groups)} {later : List Located} {path : Path}

theorem sameOutline_splice (hboundary : boundary.table.info.isBoundary = true)
    (hplaced : boundary.Placed) (h : splice data boundary groups = .ok (after, fetched))
    (hpath : ∀ parent ∈ boundary.paths,
      ¬ parent ++ [boundary.table.info.fieldName] <+: path) : SameOutline after data path := by
  obtain ⟨⟨thisKey, parentKey⟩, hkeys⟩ := Option.isSome_iff_exists.mp hboundary
  obtain ⟨values, hvalues, rfl, -⟩ := (splice_eq_ok hkeys hplaced).mp h
  apply outline_at?_putAll
  intro entry hentry
  exact hpath entry.1 ((fst_values_sublist hvalues).subset (List.mem_map_of_mem hentry))

theorem at?_splice_of_apart (hboundary : boundary.table.info.isBoundary = true)
    (hplaced : boundary.Placed) (h : splice data boundary groups = .ok (after, fetched))
    (hpath : ∀ parent ∈ boundary.paths,
      Apart (parent ++ [boundary.table.info.fieldName]) path) : after.at? path = data.at? path := by
  obtain ⟨⟨thisKey, parentKey⟩, hkeys⟩ := Option.isSome_iff_exists.mp hboundary
  obtain ⟨values, hvalues, rfl, -⟩ := (splice_eq_ok hkeys hplaced).mp h
  apply at?_putAll_of_apart
  intro entry hentry
  exact hpath entry.1 ((fst_values_sublist hvalues).subset (List.mem_map_of_mem hentry))

theorem filled_of_splice (hboundary : boundary.table.info.isBoundary = true)
    (hplaced : boundary.Placed) (h : splice data boundary groups = .ok (after, fetched)) :
    Filled data after boundary fetched := by
  obtain ⟨⟨thisKey, parentKey⟩, hkeys⟩ := Option.isSome_iff_exists.mp hboundary
  obtain ⟨values, hvalues, rfl, rfl⟩ := (splice_eq_ok hkeys hplaced).mp h
  have hsublist := fst_values_sublist hvalues
  have hfst : values.map Prod.fst =
      boundary.paths.filter fun path => (data.at? path).any Json.isObject := by
    rw [fst_fieldValues hvalues, fst_parentsAt]
  have hat : ∀ entry ∈ values, (putAll boundary.table.info.fieldName values data).at?
      (entry.1 ++ [boundary.table.info.fieldName]) = some entry.2 := by
    intro entry hentry
    have hmem : entry.1 ∈ boundary.paths.filter fun path =>
        (data.at? path).any Json.isObject := hfst ▸ List.mem_map_of_mem hentry
    obtain ⟨members, hobject⟩ := Json.exists_object_of_any_isObject (List.mem_filter.mp hmem).2
    rw [Json.at?_append, at?_putAll_self (hplaced.apart.sublist hsublist) hentry, hobject,
      Option.map_some, Option.bind_some, Json.at?_singleton, child?_withMember_self]
  refine ⟨rfl, ?_, ?_⟩
  · intro parent hparent hobject
    have hmem : parent ∈ values.map Prod.fst := by
      rw [hfst]
      exact List.mem_filter.mpr ⟨hparent, hobject⟩
    obtain ⟨entry, hentry, rfl⟩ := List.mem_map.mp hmem
    refine ⟨entry.2, hat entry hentry, ?_⟩
    intro place hplace
    rw [Located.paths_mk]
    exact List.mem_flatMap.mpr ⟨entry, hentry, List.mem_map_of_mem hplace⟩
  · intro path hpath
    rw [Located.paths_mk] at hpath
    obtain ⟨entry, hentry, hinner⟩ := List.mem_flatMap.mp hpath
    obtain ⟨place, hplace, rfl⟩ := List.mem_map.mp hinner
    exact ⟨entry.1, hsublist.subset (List.mem_map_of_mem hentry), entry.2, hat entry hentry,
      place, hplace, rfl⟩

theorem Filled.congr (h : Filled between after boundary fetched)
    (hobject : ∀ parent ∈ boundary.paths,
      (between.at? parent).any Json.isObject = (data.at? parent).any Json.isObject) :
    Filled data after boundary fetched where
  table := h.table
  value := fun parent hparent hkind => h.value parent hparent (by rwa [hobject parent hparent])
  inside := h.inside

/-- What is written apart from the values leaves them there. -/
theorem Filled.mono (h : Filled data between boundary fetched)
    (hsame : ∀ parent ∈ boundary.paths,
      after.at? (parent ++ [boundary.table.info.fieldName]) =
        between.at? (parent ++ [boundary.table.info.fieldName])) :
    Filled data after boundary fetched where
  table := h.table
  value := by
    intro parent hparent hkind
    rw [hsame parent hparent]
    exact h.value parent hparent hkind
  inside := by
    intro path hpath
    obtain ⟨parent, hparent, hvalue⟩ := h.inside path hpath
    refine ⟨parent, hparent, ?_⟩
    rwa [hsame parent hparent]

theorem sameOutline_spliceLevel
    (hjobs : ∀ job ∈ jobs, job.1.table.info.isBoundary = true ∧ job.1.Placed)
    (h : spliceLevel jobs data = .ok (after, later))
    (hpath : Untouched (jobs.map Prod.fst) path) : SameOutline after data path := by
  induction jobs generalizing data later with
  | nil =>
      obtain ⟨rfl, -⟩ := spliceLevel_nil_eq_ok.mp h
      rfl
  | cons job rest ih =>
      obtain ⟨between, fetched, others, hsplice, hrest, -⟩ := spliceLevel_cons_eq_ok.mp h
      rw [List.forall_mem_cons] at hjobs
      rw [Untouched, List.map_cons, List.forall_mem_cons] at hpath
      exact (ih hjobs.2 hrest hpath.2).trans
        (sameOutline_splice hjobs.1.1 hjobs.1.2 hsplice hpath.1)

theorem at?_spliceLevel_of_apart
    (hjobs : ∀ job ∈ jobs, job.1.table.info.isBoundary = true ∧ job.1.Placed)
    (h : spliceLevel jobs data = .ok (after, later))
    (hpath : ∀ job ∈ jobs, ∀ parent ∈ job.1.paths,
      Apart (parent ++ [job.1.table.info.fieldName]) path) : after.at? path = data.at? path := by
  induction jobs generalizing data later with
  | nil =>
      obtain ⟨rfl, -⟩ := spliceLevel_nil_eq_ok.mp h
      rfl
  | cons job rest ih =>
      obtain ⟨between, fetched, others, hsplice, hrest, -⟩ := spliceLevel_cons_eq_ok.mp h
      rw [List.forall_mem_cons] at hjobs hpath
      exact (ih hjobs.2 hrest hpath.2).trans
        (at?_splice_of_apart hjobs.1.1 hjobs.1.2 hsplice hpath.1)

/-- When the boundaries do not meet, each has its values after all of them are spliced. -/
theorem forall₂_filled_of_spliceLevel {start : Json}
    (hjobs : ∀ job ∈ jobs, job.1.table.info.isBoundary = true ∧ job.1.Placed)
    (hindependent : (jobs.map Prod.fst).Pairwise (Located.Independent fieldOnly))
    (hstart : ∀ job ∈ jobs, ∀ parent ∈ job.1.paths,
      (data.at? parent).any Json.isObject = (start.at? parent).any Json.isObject)
    (h : spliceLevel jobs data = .ok (after, later)) :
    List.Forall₂ (Filled start after) (jobs.map Prod.fst) later := by
  induction jobs generalizing data later with
  | nil =>
      obtain ⟨-, rfl⟩ := spliceLevel_nil_eq_ok.mp h
      exact List.Forall₂.nil
  | cons job rest ih =>
      obtain ⟨between, fetched, others, hsplice, hrest, rfl⟩ := spliceLevel_cons_eq_ok.mp h
      rw [List.forall_mem_cons] at hjobs hstart
      rw [List.map_cons, List.pairwise_cons] at hindependent
      have hmeet : ∀ other ∈ rest, ∀ path ∈ job.1.paths, ∀ parent ∈ other.1.paths,
          Apart (parent ++ [other.1.table.info.fieldName])
            (path ++ [job.1.table.info.fieldName]) := by
        intro other hother path hpath parent hparent
        exact (hindependent.1 other.1 (List.mem_map_of_mem hother) path hpath parent hparent).2 _
          (List.mem_singleton_self _)
      rw [List.map_cons]
      constructor
      · apply ((filled_of_splice hjobs.1.1 hjobs.1.2 hsplice).congr hstart.1).mono
        intro path hpath
        apply at?_spliceLevel_of_apart hjobs.2 hrest
        intro other hother parent hparent
        exact hmeet other hother path hpath parent hparent
      · apply ih hjobs.2 hindependent.2 _ hrest
        intro other hother parent hparent
        rw [← hstart.2 other hother parent hparent]
        apply (sameOutline_splice hjobs.1.1 hjobs.1.2 hsplice _).any_isObject
        intro path hpath hstart
        exact (hmeet other hother path hpath parent hparent).2
          (hstart.trans (List.prefix_append _ _))

end Splice

/-! ### Objects that are complete -/

/-- Nothing but the fields of the boundaries and what is in them has changed, and the
objects in the fields are complete. -/
structure Settled (boundaries : List Located) (data final : Json) : Prop where
  unchanged : ∀ path, Untouched boundaries path → SameOutline final data path
  filled : ∀ boundary ∈ boundaries, ∀ parent ∈ boundary.paths,
    (data.at? parent).any Json.isObject = true →
      ∃ value, final.at? (parent ++ [boundary.table.info.fieldName]) = some value ∧
        ∀ inner ∈ boundary.table.info.objectsIn value, Complete boundary.table inner

/-- Nothing has changed but inside the objects of a level, which are complete. -/
structure Done (level : List Located) (data final : Json) : Prop where
  unchanged : ∀ path, (∀ located ∈ level, Outside located.paths path) →
    SameOutline final data path
  complete : ∀ located ∈ level, ∀ path ∈ located.paths, ∀ object,
    final.at? path = some object → object.isObject = true → Complete located.table object

section Settled

variable {boundaries later : List Located} {data after final : Json}

theorem exists_of_mem_forall₂ {α β : Type} {R : α → β → Prop} {items : List α} {others : List β}
    (h : List.Forall₂ R items others) :
    (∀ item ∈ items, ∃ other ∈ others, R item other) ∧
      ∀ other ∈ others, ∃ item ∈ items, R item other := by
  induction h with
  | nil => simp
  | @cons item other rest more hitem _ ih =>
      constructor
      · intro found hfound
        rcases List.mem_cons.mp hfound with rfl | hrest
        · exact ⟨other, List.mem_cons_self, hitem⟩
        · obtain ⟨later, hlater, hrel⟩ := ih.1 found hrest
          exact ⟨later, List.mem_cons_of_mem _ hlater, hrel⟩
      · intro found hfound
        rcases List.mem_cons.mp hfound with rfl | hrest
        · exact ⟨item, List.mem_cons_self, hitem⟩
        · obtain ⟨earlier, hearlier, hrel⟩ := ih.2 found hrest
          exact ⟨earlier, List.mem_cons_of_mem _ hearlier, hrel⟩

/-- Of two parents with their boundaries, the fields lie apart or are the same. -/
theorem eq_or_apart_of_independent {boundary other : Located} {parent path : Path}
    (hindependent : boundaries.Pairwise (Located.Independent fieldOnly))
    (hplaced : ∀ boundary ∈ boundaries, boundary.Placed) (hboundary : boundary ∈ boundaries)
    (hother : other ∈ boundaries) (hparent : parent ∈ boundary.paths) (hpath : path ∈ other.paths) :
    (boundary = other ∧ parent = path) ∨
      Apart (parent ++ [boundary.table.info.fieldName]) (path ++ [other.table.info.fieldName]) := by
  by_cases heq : boundary = other
  · subst heq
    by_cases hsame : parent = path
    · exact Or.inl ⟨rfl, hsame⟩
    · have hsymm : Std.Symm Apart := ⟨fun _ _ => Apart.symm⟩
      exact Or.inr (((hplaced boundary hboundary).apart.forall hparent hpath hsame).append _ _)
  · have hsymm : Std.Symm (Located.Independent fieldOnly) :=
      ⟨fun _ _ => Located.Independent.symm⟩
    have hmeet := hindependent.forall hboundary hother heq
    exact Or.inr ((hmeet parent hparent path hpath).1 _ (List.mem_singleton_self _))

/-- Where only the objects of a table may have changed inside, they are where they were. -/
theorem exists_place_of_sameOutline {info : TableInfo} {path : Path} {value last inner : Json}
    (hvalue : data.at? path = some value) (hlast : final.at? path = some last)
    (hsame : ∀ rest, Outside (info.places value) rest → SameOutline final data (path ++ rest))
    (hinner : inner ∈ info.objectsIn last) :
    ∃ place ∈ info.places value, final.at? (path ++ place) = some inner := by
  have hplaces : info.places value = info.places last := by
    apply TableInfo.places_congr
    intro rest hrest
    have houtline := (hsame rest hrest).symm
    rwa [SameOutline, Json.at?_append, Json.at?_append, hvalue, hlast] at houtline
  obtain ⟨place, hplace, hat⟩ := TableInfo.exists_place_of_mem_objectsIn hinner
  refine ⟨place, hplaces ▸ hplace, ?_⟩
  rw [Json.at?_append, hlast, Option.bind_some, hat]

theorem exists_at?_of_sameOutline {path : Path} {value : Json}
    (h : SameOutline final data path) (hvalue : data.at? path = some value) :
    ∃ last, final.at? path = some last := by
  have hsome := h.isSome
  rw [hvalue, Option.isSome_some] at hsome
  exact Option.isSome_iff_exists.mp hsome

theorem settled_of_done (hindependent : boundaries.Pairwise (Located.Independent fieldOnly))
    (hplaced : ∀ boundary ∈ boundaries, boundary.Placed)
    (hfilled : List.Forall₂ (Filled data after) boundaries later)
    (hunchanged : ∀ path, Untouched boundaries path → SameOutline after data path)
    (hdone : Done later after final) : Settled boundaries data final := by
  obtain ⟨hfetched, hboundary⟩ := exists_of_mem_forall₂ hfilled
  constructor
  · intro path hpath
    apply (hdone.unchanged path _).trans (hunchanged path hpath)
    intro located hlocated inner hinner token rest heq
    obtain ⟨boundary, hmem, hin⟩ := hboundary located hlocated
    obtain ⟨parent, hparent, value, -, place, -, rfl⟩ := hin.inside inner hinner
    apply hpath boundary hmem parent hparent
    exact ⟨place ++ token :: rest, by simp [heq]⟩
  · intro boundary hmem parent hparent hobject
    obtain ⟨fetched, hlater, hin⟩ := hfetched boundary hmem
    obtain ⟨value, hvalue, hplaces⟩ := hin.value parent hparent hobject
    -- in the field the outline stays outside of the objects put there
    have hsame : ∀ rest, Outside (boundary.table.info.places value) rest →
        SameOutline final after (parent ++ [boundary.table.info.fieldName] ++ rest) := by
      intro rest hrest
      apply hdone.unchanged
      intro located hlocated inner hinner token more heq
      obtain ⟨other, hother, hinOther⟩ := hboundary located hlocated
      obtain ⟨path, hpath, found, hfound, place, hplace, rfl⟩ := hinOther.inside inner hinner
      rcases eq_or_apart_of_independent hindependent hplaced hmem hother hparent hpath with
        ⟨rfl, rfl⟩ | hapart
      · rw [hvalue, Option.some.injEq] at hfound
        subst hfound
        apply hrest place hplace token more
        simpa using heq
      · apply hapart.not_both_start (List.prefix_append _ rest)
        exact ⟨place ++ token :: more, by simp [heq]⟩
    have hroot := hsame [] (Json.outside_of_length_le fun _ _ => Nat.zero_le _)
    rw [List.append_nil] at hroot
    obtain ⟨last, hlast⟩ := exists_at?_of_sameOutline hroot hvalue
    refine ⟨last, hlast, ?_⟩
    intro inner hinner
    obtain ⟨place, hplace, hat⟩ := exists_place_of_sameOutline hvalue hlast hsame hinner
    rw [← List.append_cons] at hat
    rw [← hin.table]
    exact hdone.complete fetched hlater _ (hplaces place hplace) inner hat
      (TableInfo.isObject_of_mem_objectsIn hinner)

end Settled

/-! ### Tables whose boundaries are settled -/

section Tables

variable {boundaries : List Located} {data final : Json} {table child : Table Node}
  {paths : List Path} {boundary : Located}

/-- No boundary below a table writes at or above an object of the table. -/
theorem not_prefix_of_mem_boundaries (hapart : paths.Pairwise Apart)
    (h : boundary ∈ table.boundaries data (paths.map ofPath)) {parent path : Path}
    (hparent : parent ∈ boundary.paths) (hpath : path ∈ paths) (name : String) :
    ¬ parent ++ [name] <+: path := by
  intro hstart
  obtain ⟨-, -, -, hbelow⟩ := placed_of_mem_boundaries hapart h
  obtain ⟨other, hother, habove⟩ := hbelow parent hparent
  have hlonger := (habove.trans (List.prefix_append parent [name])).trans hstart
  by_cases heq : other = path
  · subst heq
    have hlength := (habove.length_le.trans_lt (by simp)).trans_le hstart.length_le
    exact absurd hlength (lt_irrefl _)
  · have hsymm : Std.Symm Apart := ⟨fun _ _ => Apart.symm⟩
    exact (hapart.forall hother hpath heq).1 hlonger

/-- The boundaries are those below a table, or do not write at or above its objects. -/
def Covers (boundaries : List Located) (data : Json) (table : Table Node) (paths : List Path) :
    Prop :=
  (∀ boundary ∈ table.boundaries data (paths.map ofPath), boundary ∈ boundaries) ∧
    ∀ boundary ∈ boundaries, boundary ∈ table.boundaries data (paths.map ofPath) ∨
      ∀ parent ∈ boundary.paths, ∀ path ∈ paths,
        Apart (parent ++ [boundary.table.info.fieldName]) path

theorem Covers.untouched (hcovers : Covers boundaries data table paths)
    (hapart : paths.Pairwise Apart) {path : Path} (hpath : path ∈ paths) :
    Untouched boundaries path := by
  intro boundary hboundary parent hparent
  rcases hcovers.2 boundary hboundary with hbelow | hapart
  · exact not_prefix_of_mem_boundaries hapart hbelow hparent hpath _
  · exact (hapart parent hparent path hpath).1

theorem boundaries_eq_flatMap_of_mem {path : Path} (hpath : path ∈ paths) :
    table.boundaries data (paths.map ofPath) =
      table.tables.flatMap fun child => (Node.table child).boundaries data (paths.map ofPath) := by
  have hnonempty : (paths.map ofPath).isEmpty = false := by
    rw [List.isEmpty_eq_false_iff]
    exact List.ne_nil_of_mem (List.mem_map_of_mem hpath)
  rw [Table.boundaries_eq, hnonempty]
  rfl

/-- Where a boundary below a table writes, from the field of a child: it is the child
itself, or lies below it, or lies apart from the field. -/
theorem apart_or_below (hseparated : table.Separated fieldOnly) (hapart : paths.Pairwise Apart)
    (hchild : child ∈ table.tables)
    (h : boundary ∈ table.boundaries data (paths.map ofPath)) :
    boundary ∈ (Node.table child).boundaries data (paths.map ofPath) ∨
      ∀ parent ∈ boundary.paths, ∀ path ∈ paths,
        Apart (parent ++ [boundary.table.info.fieldName]) (path ++ [child.info.fieldName]) := by
  obtain ⟨other, hother, hmem⟩ := mem_boundaries h
  by_cases heq : other = child
  · subst heq
    exact Or.inl hmem
  · have hsymm : Std.Symm fun first second : Table Node =>
        Separate fieldOnly first.info second.info := ⟨fun _ _ h => ⟨h.2, h.1⟩⟩
    have hne : other.info.fieldName ≠ child.info.fieldName := fun hname =>
      (hseparated.forall hother hchild heq).2 (List.mem_singleton.mpr hname)
    right
    intro parent hparent path hpath
    have htouched : other.info.fieldName ∈ fieldOnly other.info := List.mem_singleton_self _
    obtain ⟨origin, horigin, hstart, -⟩ :=
      exists_touched_of_mem_boundaries hapart htouched hmem hparent
    have hfields : Apart (origin ++ [other.info.fieldName]) (path ++ [child.info.fieldName]) := by
      by_cases hsame : origin = path
      · subst hsame
        exact (Json.apart_append_iff _).mpr (Json.apart_cons_of_ne hne [] [])
      · have hsymm : Std.Symm Apart := ⟨fun _ _ => Apart.symm⟩
        exact (hapart.forall horigin hpath hsame).append _ _
    exact hfields.of_starts hstart List.prefix_rfl

/-- The boundaries that cover a table cover its joined tables. -/
theorem Covers.nested (hcovers : Covers boundaries data table paths)
    (hseparated : table.Separated fieldOnly) (hapart : paths.Pairwise Apart)
    (hchild : child ∈ table.tables) (hjoined : child.info.isBoundary = false) {path : Path}
    (hpath : path ∈ paths) :
    Covers boundaries data child (nestedPaths data child.info paths) := by
  have hentry : (Node.table child).boundaries data (paths.map ofPath) =
      child.boundaries data ((nestedPaths data child.info paths).map ofPath) := by
    rw [Node.boundaries_table, hjoined]
    rfl
  constructor
  · intro boundary hboundary
    apply hcovers.1
    rw [boundaries_eq_flatMap_of_mem hpath]
    exact List.mem_flatMap.mpr ⟨child, hchild, hentry ▸ hboundary⟩
  · intro boundary hboundary
    rcases hcovers.2 boundary hboundary with hbelow | hclear
    · rcases apart_or_below hseparated hapart hchild hbelow with hmem | hclear
      · exact Or.inl (hentry ▸ hmem)
      · right
        intro parent hparent inner hinner
        obtain ⟨origin, horigin, hstart⟩ := exists_prefix_of_mem_nestedPaths hinner
        exact (hclear parent hparent origin horigin).of_starts List.prefix_rfl hstart
    · right
      intro parent hparent inner hinner
      obtain ⟨origin, horigin, hstart⟩ := exists_prefix_of_mem_nestedPaths hinner
      exact (hclear parent hparent origin horigin).of_starts List.prefix_rfl
        ((List.prefix_append _ _).trans hstart)

/-- In the field of a joined table the boundaries write inside its objects only. -/
theorem Covers.untouched_field (hcovers : Covers boundaries data table paths)
    (hseparated : table.Separated fieldOnly) (hapart : paths.Pairwise Apart)
    (hchild : child ∈ table.tables) (hjoined : child.info.isBoundary = false) {path : Path}
    (hpath : path ∈ paths) {rest : Path}
    (hrest : ∀ value, data.at? (path ++ [child.info.fieldName]) = some value →
      Outside (child.info.places value) rest) :
    Untouched boundaries (path ++ [child.info.fieldName] ++ rest) := by
  intro boundary hboundary parent hparent hstart
  rcases hcovers.2 boundary hboundary with hbelow | hclear
  · rcases apart_or_below hseparated hapart hchild hbelow with hmem | hclear
    · rw [Node.boundaries_table, hjoined] at hmem
      obtain ⟨-, -, -, hnested⟩ := placed_of_mem_boundaries (pairwise_nestedPaths hapart) hmem
      obtain ⟨inner, hinner, habove⟩ := hnested parent hparent
      obtain ⟨origin, horigin, hin⟩ := List.mem_flatMap.mp hinner
      obtain ⟨found, hfound, place, hplace, rfl⟩ := mem_objectPaths.mp hin
      have hsame : origin = path := by
        by_contra hne
        have hsymm : Std.Symm Apart := ⟨fun _ _ => Apart.symm⟩
        apply ((hapart.forall horigin hpath hne).append _ _).not_both_start
          (((List.prefix_append _ place).trans habove).trans
            ((List.prefix_append _ _).trans hstart))
          (List.prefix_append _ rest)
      subst hsame
      obtain ⟨more, rfl⟩ := habove
      rw [List.append_assoc, List.append_assoc, List.prefix_append_right_inj] at hstart
      exact (hrest found hfound).not_starts hplace (by simp) hstart
    · exact (hclear parent hparent path hpath).not_both_start hstart (List.prefix_append _ _)
  · exact (hclear parent hparent path hpath).not_both_start hstart
      ((List.prefix_append _ _).trans (List.prefix_append _ _))

/-- The field of a boundary below an object holds complete objects. -/
theorem exists_filled_field (hsettled : Settled boundaries data final)
    (hapart : paths.Pairwise Apart) (hcovers : Covers boundaries data table paths) {path : Path}
    (hpath : path ∈ paths) {object : Json} (hat : final.at? path = some object)
    (hobject : object.isObject = true) (hchild : child ∈ table.tables)
    (hboundary : child.info.isBoundary = true) :
    ∃ value, final.at? (path ++ [child.info.fieldName]) = some value ∧
      ∀ inner ∈ child.info.objectsIn value, Complete child inner := by
  have hdata : (data.at? path).any Json.isObject = true := by
    rw [← (hsettled.unchanged path (hcovers.untouched hapart hpath)).any_isObject, hat]
    exact hobject
  have hmem : (⟨child, paths.map ofPath⟩ : Located) ∈ boundaries := by
    apply hcovers.1
    rw [boundaries_eq_flatMap_of_mem hpath]
    apply List.mem_flatMap.mpr
    refine ⟨child, hchild, ?_⟩
    rw [Node.boundaries_table, if_pos hboundary]
    exact List.mem_singleton_self _
  exact hsettled.filled _ hmem path (by simpa using hpath) hdata

/-- The objects in the field of a joined table are where the table's objects were before. -/
theorem exists_nested_path (hsettled : Settled boundaries data final)
    (hseparated : table.Separated fieldOnly) (hapart : paths.Pairwise Apart)
    (hcovers : Covers boundaries data table paths) {path : Path} (hpath : path ∈ paths)
    (hchild : child ∈ table.tables) (hjoined : child.info.isBoundary = false) {value inner : Json}
    (hvalue : final.at? (path ++ [child.info.fieldName]) = some value)
    (hinner : inner ∈ child.info.objectsIn value) :
    ∃ nested ∈ nestedPaths data child.info paths, final.at? nested = some inner := by
  have hsame : ∀ rest, (∀ found, data.at? (path ++ [child.info.fieldName]) = some found →
      Outside (child.info.places found) rest) →
      SameOutline final data (path ++ [child.info.fieldName] ++ rest) := fun rest hrest =>
    hsettled.unchanged _
      (hcovers.untouched_field hseparated hapart hchild hjoined hpath hrest)
  have hroot := hsame [] fun _ _ => Json.outside_of_length_le fun _ _ => Nat.zero_le _
  rw [List.append_nil] at hroot
  obtain ⟨first, hfirst⟩ := exists_at?_of_sameOutline hroot.symm hvalue
  obtain ⟨place, hplace, hat⟩ := exists_place_of_sameOutline hfirst hvalue
    (fun rest hrest => hsame rest fun found hfound => by
      rw [hfirst, Option.some.injEq] at hfound
      rwa [← hfound]) hinner
  exact ⟨_, List.mem_flatMap.mpr ⟨path, hpath, mem_objectPaths.mpr
    ⟨first, hfirst, place, hplace, rfl⟩⟩, hat⟩

/-- The objects of a table are complete when the boundaries below it are settled. -/
theorem complete_of_settled (hsettled : Settled boundaries data final)
    (hseparated : ∀ inner ∈ table.subtree, inner.Separated fieldOnly)
    (hapart : paths.Pairwise Apart) (hcovers : Covers boundaries data table paths) {path : Path}
    (hpath : path ∈ paths) {object : Json} (hat : final.at? path = some object)
    (hobject : object.isObject = true) : Complete table object := by
  induction table using Table.induction generalizing paths path object with
  | step table ih =>
      have hown := hseparated table table.mem_subtree_self
      obtain ⟨members, rfl⟩ := Json.exists_object_of_isObject hobject
      have hmember : ∀ name, final.at? (path ++ [name]) = (Json.object members).get? name := by
        intro name
        rw [Json.at?_append, hat, Option.bind_some, Json.at?_singleton]
        rfl
      constructor
      · intro child hchild hboundary
        obtain ⟨value, hvalue, -⟩ :=
          exists_filled_field hsettled hapart hcovers hpath hat hobject hchild hboundary
        exact ⟨value, (hmember _).symm.trans hvalue⟩
      · intro child hchild value hvalue inner hinner
        have hlast : final.at? (path ++ [child.info.fieldName]) = some value :=
          (hmember _).trans hvalue
        cases hboundary : child.info.isBoundary with
        | true =>
            obtain ⟨found, hfound, hcomplete⟩ :=
              exists_filled_field hsettled hapart hcovers hpath hat hobject hchild hboundary
            obtain rfl := Option.some.inj (hfound.symm.trans hlast)
            exact hcomplete inner hinner
        | false =>
            obtain ⟨nested, hnested, hinnerAt⟩ :=
              exists_nested_path hsettled hown hapart hcovers hpath hchild hboundary hlast hinner
            exact ih child hchild
              (fun inner hinner => hseparated inner (Table.mem_subtree_of_mem_tables hchild hinner))
              (pairwise_nestedPaths hapart)
              (hcovers.nested hown hapart hchild hboundary hpath) hnested hinnerAt
              (TableInfo.isObject_of_mem_objectsIn hinner)

end Tables

/-! ### Levels whose boundaries are settled -/

section Levels

variable {root : Table Node} {level : List Located} {data final : Json} {located : Located}

theorem covers_of_mem_level (hin : ∀ located ∈ level, InPlan root located)
    (hseparate : level.Pairwise Located.Separate) (hlocated : located ∈ level) :
    Covers (levelBoundaries data level) data located.table located.paths := by
  have hplaced := (hin located hlocated).placed
  constructor
  · intro boundary hboundary
    rw [← hplaced.objects] at hboundary
    exact List.mem_flatMap.mpr ⟨located, hlocated, hboundary⟩
  · intro boundary hboundary
    obtain ⟨other, hother, hmem⟩ := List.mem_flatMap.mp hboundary
    by_cases heq : other = located
    · subst heq
      rw [← hplaced.objects]
      exact Or.inl hmem
    · have hsymm : Std.Symm Located.Separate :=
        ⟨fun _ _ h path hpath parent hparent => (h parent hparent path hpath).symm⟩
      have hapart := hseparate.forall hother hlocated heq
      have hplacedOther := (hin other hother).placed
      rw [hplacedOther.objects] at hmem
      obtain ⟨-, -, -, hbelow⟩ := placed_of_mem_boundaries hplacedOther.apart hmem
      right
      intro parent hparent path hpath
      obtain ⟨origin, horigin, hstart⟩ := hbelow parent hparent
      exact (hapart origin horigin path hpath).of_starts
        (hstart.trans (List.prefix_append _ _)) List.prefix_rfl

theorem untouched_of_outside (hin : ∀ located ∈ level, InPlan root located) {path : Path}
    (hpath : ∀ located ∈ level, Outside located.paths path) :
    Untouched (levelBoundaries data level) path := by
  intro boundary hboundary parent hparent hstart
  obtain ⟨located, hlocated, hmem⟩ := List.mem_flatMap.mp hboundary
  have hplaced := (hin located hlocated).placed
  rw [hplaced.objects] at hmem
  obtain ⟨-, -, -, hbelow⟩ := placed_of_mem_boundaries hplaced.apart hmem
  obtain ⟨origin, horigin, more, rfl⟩ := hbelow parent hparent
  rw [List.append_assoc] at hstart
  exact (hpath located hlocated).not_starts horigin (by simp) hstart

theorem done_of_settled (hin : ∀ located ∈ level, InPlan root located)
    (hseparated : ∀ table ∈ root.subtree, table.Separated fieldOnly)
    (hseparate : level.Pairwise Located.Separate)
    (hsettled : Settled (levelBoundaries data level) data final) : Done level data final := by
  constructor
  · intro path hpath
    exact hsettled.unchanged path (untouched_of_outside hin hpath)
  · intro located hlocated path hpath object hat hobject
    have hplan := hin located hlocated
    exact complete_of_settled hsettled
      (fun inner hinner => hseparated inner ((Table.subtree_sublist _ hplan.table).subset hinner))
      hplan.placed.apart (covers_of_mem_level hin hseparate hlocated) hpath hat hobject

/-- When the objects fetched for a level become complete, so do those of the level. -/
theorem done_of_spliceLevel (hin : ∀ located ∈ level, InPlan root located)
    (hseparated : ∀ table ∈ root.subtree, table.Separated fieldOnly)
    (hseparate : level.Pairwise Located.Separate) {groups : List Groups}
    (hgroups : groups.length = (levelBoundaries data level).length) {after : Json}
    {later : List Located}
    (hsplice : spliceLevel ((levelBoundaries data level).zip groups) data = .ok (after, later))
    (hdone : Done later after final) : Done level data final := by
  apply done_of_settled hin hseparated hseparate
  have hfst : ((levelBoundaries data level).zip groups).map Prod.fst =
      levelBoundaries data level := List.map_fst_zip (le_of_eq hgroups.symm)
  have hboundaries : ∀ boundary ∈ levelBoundaries data level,
      boundary.table.info.isBoundary = true ∧ InPlan root boundary :=
    fun boundary => inPlan_of_mem_levelBoundaries hin
  have hjobs : ∀ job ∈ (levelBoundaries data level).zip groups,
      job.1.table.info.isBoundary = true ∧ job.1.Placed := by
    intro job hjob
    have hboundary := hboundaries job.1 (hfst ▸ List.mem_map_of_mem hjob)
    exact ⟨hboundary.1, hboundary.2.placed⟩
  have hindependent : (levelBoundaries data level).Pairwise (Located.Independent fieldOnly) :=
    pairwise_levelBoundaries (fun _ => List.mem_singleton_self _) hseparated hin hseparate
  apply settled_of_done hindependent
    (fun boundary hboundary => (hboundaries boundary hboundary).2.placed) _ _ hdone
  · have hfilled := forall₂_filled_of_spliceLevel hjobs (by rwa [hfst])
      (fun _ _ _ _ => rfl) hsplice
    rwa [hfst] at hfilled
  · intro path hpath
    exact sameOutline_spliceLevel hjobs hsplice (by rwa [hfst])

end Levels

end JoinPlan.Plan
