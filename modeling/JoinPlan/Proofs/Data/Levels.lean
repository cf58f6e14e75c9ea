import JoinPlan.Proofs.Data.Splicing
import JoinPlan.Proofs.Plan.Tree
import Mathlib.Data.List.Forall2

/-!
# Levels of boundaries

A level of the batches is a list of tables with the objects they have in the data.  The
objects of one table never lie inside each other.  When the fields of a table's children
have different names, those of two tables of a level do not either, and what one boundary
of the level writes lies apart from what another one reads or writes.
-/

namespace JoinPlan.Plan

open Json (Path Apart)
open Json.Pointer (ofPath)

/-! ### Boundaries below a table -/

theorem nodesBoundaries_eq_flatMap (data : Json) (nodes : List Node) (objects : List Json.Pointer) :
    nodesBoundaries data nodes objects =
      nodes.flatMap fun node => node.boundaries data objects := by
  induction nodes with
  | nil => rfl
  | cons node rest ih => rw [nodesBoundaries, ih, List.flatMap_cons]

theorem bucketsBoundaries_eq_flatMap (data : Json) (buckets : List (String × List Node))
    (objects : List Json.Pointer) :
    bucketsBoundaries data buckets objects =
      (buckets.flatMap Prod.snd).flatMap fun node => node.boundaries data objects := by
  induction buckets with
  | nil => rfl
  | cons bucket rest ih =>
      rw [bucketsBoundaries, bucketBoundaries, nodesBoundaries_eq_flatMap, ih, List.flatMap_cons,
        List.flatMap_append]

theorem Node.boundaries_of_leaf {node : Node} (hleaf : node.table? = none) (data : Json)
    (objects : List Json.Pointer) : node.boundaries data objects = [] := by
  cases node with
  | table child => cases hleaf
  | column | dependencies | composite | expression | nothing => rfl

theorem Table.boundaries_eq (table : Table Node) (data : Json) (objects : List Json.Pointer) :
    table.boundaries data objects =
      if objects.isEmpty then []
      else table.tables.flatMap fun child => (Node.table child).boundaries data objects := by
  obtain ⟨info, shared, typed⟩ := table
  rw [boundaries, nodesBoundaries_eq_flatMap, bucketsBoundaries_eq_flatMap,
    ← List.flatMap_append, flatMap_eq_tables fun node hleaf =>
      Node.boundaries_of_leaf hleaf data objects]
  rfl

/-- The paths of a child table's objects in the objects at some paths. -/
def nestedPaths (data : Json) (info : TableInfo) (paths : List Path) : List Path :=
  paths.flatMap fun path => objectPaths data (path ++ [info.fieldName]) info

theorem flatMap_objectsAt (data : Json) (info : TableInfo) (paths : List Path) :
    ((paths.map ofPath).flatMap fun object =>
        objectsAt data (object.child info.fieldName) info) =
      (nestedPaths data info paths).map ofPath := by
  rw [nestedPaths, List.map_flatMap, List.flatMap_map]
  congr 1
  funext path
  rw [Json.Pointer.child_ofPath, objectsAt_ofPath]

theorem pairwise_nestedPaths {data : Json} {info : TableInfo} {paths : List Path}
    (hapart : paths.Pairwise Apart) : (nestedPaths data info paths).Pairwise Apart := by
  apply List.pairwise_flatMap.mpr
  constructor
  · intro path _
    exact pairwise_objectPaths data _ info
  · apply hapart.imp
    intro first second hpaths inner hinner other hother
    exact (hpaths.append _ _).of_starts (prefix_of_mem_objectPaths hinner)
      (prefix_of_mem_objectPaths hother)

theorem exists_prefix_of_mem_nestedPaths {data : Json} {info : TableInfo} {paths : List Path}
    {inner : Path} (h : inner ∈ nestedPaths data info paths) :
    ∃ path ∈ paths, path ++ [info.fieldName] <+: inner := by
  obtain ⟨path, hpath, hinner⟩ := List.mem_flatMap.mp h
  exact ⟨path, hpath, prefix_of_mem_objectPaths hinner⟩

theorem Node.boundaries_table (child : Table Node) (data : Json) (paths : List Path) :
    (Node.table child).boundaries data (paths.map ofPath) =
      if child.info.isBoundary then [⟨child, paths.map ofPath⟩]
      else child.boundaries data ((nestedPaths data child.info paths).map ofPath) := by
  rw [Node.boundaries, flatMap_objectsAt]

/-! ### Tables with the paths of their objects -/

namespace Located

/-- The paths of the objects. -/
def paths (located : Located) : List Path := located.objects.filterMap Json.Pointer.path?

@[simp]
theorem paths_mk (table : Table Node) (paths : List Path) :
    (⟨table, paths.map ofPath⟩ : Located).paths = paths := by
  simp [Located.paths, List.filterMap_map]

/-- The objects are at paths that lie apart from each other. -/
structure Placed (located : Located) : Prop where
  objects : located.objects = located.paths.map ofPath
  apart : located.paths.Pairwise Apart

theorem Placed.mk_map {table : Table Node} {paths : List Path} (hapart : paths.Pairwise Apart) :
    (⟨table, paths.map ofPath⟩ : Located).Placed :=
  ⟨by rw [paths_mk], by rwa [paths_mk]⟩

theorem Placed.eq {located : Located} (h : located.Placed) :
    located = ⟨located.table, located.paths.map ofPath⟩ := by
  rw [← h.objects]

end Located

section Below

variable {table child : Table Node} {data : Json} {paths : List Path} {boundary : Located}

/-- What holds of the boundaries below a table holds of those of every child, with the
child's own objects or the objects nested in them. -/
theorem mem_boundaries (h : boundary ∈ table.boundaries data (paths.map ofPath)) :
    ∃ child ∈ table.tables, boundary ∈ (Node.table child).boundaries data (paths.map ofPath) := by
  rw [Table.boundaries_eq] at h
  split at h
  · simp at h
  · exact List.mem_flatMap.mp h

/-- A boundary below a table is one of its tables, with objects in the table's own. -/
theorem placed_of_mem_boundaries (hapart : paths.Pairwise Apart)
    (h : boundary ∈ table.boundaries data (paths.map ofPath)) :
    boundary.Placed ∧ boundary.table.info.isBoundary = true ∧
      boundary.table ∈ table.children.flatMap Node.subtree ∧
      ∀ inner ∈ boundary.paths, ∃ path ∈ paths, path <+: inner := by
  induction table using Table.induction generalizing paths with
  | step table ih =>
      obtain ⟨child, hchild, hmem⟩ := mem_boundaries h
      have hbelow := (Table.subtree_sublist_of_mem_tables hchild).subset
      rw [Node.boundaries_table] at hmem
      split at hmem
      · rename_i hboundary
        obtain rfl := List.mem_singleton.mp hmem
        refine ⟨Located.Placed.mk_map hapart, hboundary, hbelow child.mem_subtree_self, ?_⟩
        intro inner hinner
        rw [Located.paths_mk] at hinner
        exact ⟨inner, hinner, List.prefix_rfl⟩
      · obtain ⟨hplaced, hboundary, htable, hpaths⟩ :=
          ih child hchild (pairwise_nestedPaths hapart) hmem
        refine ⟨hplaced, hboundary, hbelow ?_, ?_⟩
        · rw [Table.subtree_eq]
          exact List.mem_cons_of_mem _ htable
        · intro inner hinner
          obtain ⟨nested, hnested, hstart⟩ := hpaths inner hinner
          obtain ⟨path, hpath, hfield⟩ := exists_prefix_of_mem_nestedPaths hnested
          exact ⟨path, hpath, ((List.prefix_append _ _).trans hfield).trans hstart⟩

end Below

/-! ### Levels -/

/-- The levels the batches of a plan come to, whatever is in the data and whatever is
fetched for the boundaries. -/
inductive Level (root : Table Node) : List Located → Prop
  | root (data : Json) : Level root [⟨root, objectsAt data "" root.info⟩]
  | next {level later : List Located} {found data after : Json} {groups : List Groups} :
      Level root level →
      spliceLevel ((levelBoundaries found level).zip groups) data = .ok (after, later) →
      Level root later

section Splice

variable {data after : Json} {boundary fetched : Located} {groups : Groups}
  {thisKey parentKey : Column}

theorem splice_eq (hkeys : boundary.table.info.batchKeys? = some (thisKey, parentKey))
    (hplaced : boundary.Placed) (groups : Groups) (data : Json) :
    splice data boundary groups =
      (fieldValues boundary.table.info parentKey groups (parentsAt data boundary.paths)).map
        fun values =>
          (putAll boundary.table.info.fieldName values data,
            ⟨boundary.table, (putPaths boundary.table.info values).map ofPath⟩) := by
  simp only [splice, hkeys]
  rw [hplaced.objects, spliceAll_ofPath hplaced.apart]
  cases fieldValues boundary.table.info parentKey groups (parentsAt data boundary.paths) <;> rfl

theorem splice_eq_ok (hkeys : boundary.table.info.batchKeys? = some (thisKey, parentKey))
    (hplaced : boundary.Placed) :
    splice data boundary groups = .ok (after, fetched) ↔
      ∃ values,
        fieldValues boundary.table.info parentKey groups (parentsAt data boundary.paths) =
            .ok values ∧
          after = putAll boundary.table.info.fieldName values data ∧
          fetched = ⟨boundary.table, (putPaths boundary.table.info values).map ofPath⟩ := by
  rw [splice_eq hkeys hplaced]
  cases fieldValues boundary.table.info parentKey groups (parentsAt data boundary.paths) with
  | error error => simp [Except.map]
  | ok values =>
      simp only [Except.map, Except.ok.injEq, Prod.mk.injEq]
      constructor
      · rintro ⟨hafter, hfetched⟩
        exact ⟨values, rfl, hafter.symm, hfetched.symm⟩
      · rintro ⟨other, rfl, hafter, hfetched⟩
        exact ⟨hafter.symm, hfetched.symm⟩

theorem pairwise_putPaths {info : TableInfo} {values : List (Path × Json)}
    (hapart : (values.map Prod.fst).Pairwise Apart) : (putPaths info values).Pairwise Apart := by
  apply List.pairwise_flatMap.mpr
  constructor
  · intro entry _
    apply List.Pairwise.map (fun place : Path => entry.1 ++ info.fieldName :: place) _
      (info.pairwise_places entry.2)
    intro first second hplaces
    exact (Json.apart_append_iff _).mpr (Json.apart_cons_iff.mpr hplaces)
  · apply (List.pairwise_map.mp hapart).imp
    intro first second hpaths inner hinner other hother
    obtain ⟨place, -, rfl⟩ := List.mem_map.mp hinner
    obtain ⟨another, -, rfl⟩ := List.mem_map.mp hother
    exact hpaths.append _ _

theorem exists_prefix_of_mem_putPaths {info : TableInfo} {values : List (Path × Json)}
    {inner : Path} (h : inner ∈ putPaths info values) :
    ∃ path ∈ values.map Prod.fst, path ++ [info.fieldName] <+: inner := by
  obtain ⟨entry, hentry, hinner⟩ := List.mem_flatMap.mp h
  obtain ⟨place, -, rfl⟩ := List.mem_map.mp hinner
  refine ⟨entry.1, List.mem_map_of_mem hentry, place, ?_⟩
  rw [List.append_assoc, List.singleton_append]

theorem fst_values_sublist {paths : List Path} {info : TableInfo} {values : List (Path × Json)}
    (h : fieldValues info parentKey groups (parentsAt data paths) = .ok values) :
    (values.map Prod.fst).Sublist paths := by
  rw [fst_fieldValues h, fst_parentsAt]
  exact List.filter_sublist

/-- The objects put into the parents of a boundary lie in the field of the parents. -/
structure FetchedFor (boundary fetched : Located) : Prop where
  table : fetched.table = boundary.table
  placed : fetched.Placed
  inField : ∀ inner ∈ fetched.paths,
    ∃ path ∈ boundary.paths, path ++ [boundary.table.info.fieldName] <+: inner

theorem fetchedFor_of_splice (hboundary : boundary.table.info.isBoundary = true)
    (hplaced : boundary.Placed) (h : splice data boundary groups = .ok (after, fetched)) :
    FetchedFor boundary fetched := by
  obtain ⟨⟨thisKey, parentKey⟩, hkeys⟩ := Option.isSome_iff_exists.mp hboundary
  obtain ⟨values, hvalues, -, rfl⟩ := (splice_eq_ok hkeys hplaced).mp h
  have hsublist := fst_values_sublist hvalues
  refine ⟨rfl, Located.Placed.mk_map (pairwise_putPaths (hplaced.apart.sublist hsublist)), ?_⟩
  intro inner hinner
  rw [Located.paths_mk] at hinner
  obtain ⟨path, hpath, hstart⟩ := exists_prefix_of_mem_putPaths hinner
  exact ⟨path, hsublist.subset hpath, hstart⟩

end Splice

theorem spliceLevel_nil_eq_ok {data after : Json} {later : List Located} :
    spliceLevel [] data = .ok (after, later) ↔ after = data ∧ later = [] := by
  simp [spliceLevel, eq_comm]

theorem spliceLevel_cons_eq_ok {boundary : Located} {groups : Groups}
    {rest : List (Located × Groups)} {data after : Json} {later : List Located} :
    spliceLevel ((boundary, groups) :: rest) data = .ok (after, later) ↔
      ∃ between fetched others, splice data boundary groups = .ok (between, fetched) ∧
        spliceLevel rest between = .ok (after, others) ∧ later = fetched :: others := by
  rw [spliceLevel]
  cases hsplice : splice data boundary groups with
  | error error => simp [bind, Except.bind]
  | ok first =>
      obtain ⟨between, fetched⟩ := first
      simp only [bind, Except.bind]
      cases hrest : spliceLevel rest between with
      | error error => simp [hrest]
      | ok second =>
          obtain ⟨last, others⟩ := second
          simp only [Except.ok.injEq, Prod.mk.injEq]
          constructor
          · rintro ⟨rfl, rfl⟩
            exact ⟨between, fetched, others, ⟨rfl, rfl⟩, hrest, rfl⟩
          · rintro ⟨other, another, rest, ⟨rfl, rfl⟩, hothers, rfl⟩
            rw [hrest] at hothers
            simp only [Except.ok.injEq, Prod.mk.injEq] at hothers
            exact ⟨hothers.1, by rw [hothers.2]⟩

theorem forall₂_of_spliceLevel {jobs : List (Located × Groups)} {data after : Json}
    {later : List Located}
    (hjobs : ∀ job ∈ jobs, job.1.table.info.isBoundary = true ∧ job.1.Placed)
    (h : spliceLevel jobs data = .ok (after, later)) :
    List.Forall₂ FetchedFor (jobs.map Prod.fst) later := by
  induction jobs generalizing data later with
  | nil =>
      obtain ⟨-, rfl⟩ := spliceLevel_nil_eq_ok.mp h
      exact List.Forall₂.nil
  | cons job rest ih =>
      obtain ⟨between, fetched, others, hsplice, hrest, rfl⟩ := spliceLevel_cons_eq_ok.mp h
      rw [List.forall_mem_cons] at hjobs
      exact List.Forall₂.cons (fetchedFor_of_splice hjobs.1.1 hjobs.1.2 hsplice)
        (ih hjobs.2 hrest)

/-! ### What holds at every level -/

section Invariants

variable {root : Table Node} {level : List Located} {found : Json} {boundary : Located}

/-- A table of a plan, with its objects in their places. -/
structure InPlan (root : Table Node) (located : Located) : Prop where
  table : located.table ∈ root.subtree
  placed : located.Placed

theorem inPlan_of_mem_levelBoundaries (hlevel : ∀ located ∈ level, InPlan root located)
    (h : boundary ∈ levelBoundaries found level) :
    boundary.table.info.isBoundary = true ∧ InPlan root boundary := by
  obtain ⟨located, hlocated, hmem⟩ := List.mem_flatMap.mp h
  have hin := hlevel located hlocated
  rw [hin.placed.objects] at hmem
  obtain ⟨hplaced, hboundary, hbelow, -⟩ := placed_of_mem_boundaries hin.placed.apart hmem
  refine ⟨hboundary, ?_, hplaced⟩
  apply (Table.subtree_sublist _ hin.table).subset
  rw [Table.subtree_eq]
  exact List.mem_cons_of_mem _ hbelow

theorem forall_inPlan_of_forall₂ {boundaries later : List Located}
    (hboundaries : ∀ boundary ∈ boundaries, InPlan root boundary)
    (h : List.Forall₂ FetchedFor boundaries later) : ∀ located ∈ later, InPlan root located := by
  induction h with
  | nil => simp
  | cons hfetched _ ih =>
      rw [List.forall_mem_cons] at hboundaries ⊢
      exact ⟨⟨hfetched.table ▸ hboundaries.1.table, hfetched.placed⟩, ih hboundaries.2⟩

theorem fst_zip_sublist {α β : Type} (first : List α) (second : List β) :
    ((first.zip second).map Prod.fst).Sublist first := by
  induction first generalizing second with
  | nil => simp
  | cons head rest ih =>
      cases second with
      | nil => simp
      | cons other others =>
          rw [List.zip_cons_cons, List.map_cons]
          exact (ih others).cons_cons head

theorem forall₂_of_spliceLevel_zip {groups : List Groups} {data after : Json}
    {later : List Located} (hlevel : ∀ located ∈ level, InPlan root located)
    (h : spliceLevel ((levelBoundaries found level).zip groups) data = .ok (after, later)) :
    List.Forall₂ FetchedFor (((levelBoundaries found level).zip groups).map Prod.fst) later := by
  apply forall₂_of_spliceLevel _ h
  intro job hjob
  have hmem := (fst_zip_sublist _ groups).subset (List.mem_map_of_mem hjob)
  have hin := inPlan_of_mem_levelBoundaries hlevel hmem
  exact ⟨hin.1, hin.2.placed⟩

theorem Level.inPlan (hlevel : Level root level) : ∀ located ∈ level, InPlan root located := by
  induction hlevel with
  | root data =>
      intro located hlocated
      obtain rfl := List.mem_singleton.mp hlocated
      refine ⟨root.mem_subtree_self, ?_⟩
      have hobjects := objectsAt_ofPath data [] root.info
      rw [Json.Pointer.ofPath_nil] at hobjects
      rw [hobjects]
      exact Located.Placed.mk_map (pairwise_objectPaths data [] root.info)
  | next _ hsplice ih =>
      apply forall_inPlan_of_forall₂ _ (forall₂_of_spliceLevel_zip ih hsplice)
      intro boundary hboundary
      exact (inPlan_of_mem_levelBoundaries ih ((fst_zip_sublist _ _).subset hboundary)).2

theorem Level.boundary_inPlan (hlevel : Level root level)
    (h : boundary ∈ levelBoundaries found level) :
    boundary.table.info.isBoundary = true ∧ InPlan root boundary :=
  inPlan_of_mem_levelBoundaries hlevel.inPlan h

end Invariants

end JoinPlan.Plan
