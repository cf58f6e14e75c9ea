import JoinPlan.Proofs.Data.Levels

/-!
# Boundaries that do not meet

The fields of a table's children have names.  When no child has the name of a member that
a sibling touches, no boundary of a level writes what another one touches, and the objects
of the tables fetched for a level lie apart from each other.
-/

namespace JoinPlan.Plan

open Json (Path Apart)
open Json.Pointer (ofPath)

/-- Neither of two children has the name of a member that the other touches. -/
def Separate (touched : TableInfo → List String) (first second : TableInfo) : Prop :=
  second.fieldName ∉ touched first ∧ first.fieldName ∉ touched second

instance (touched : TableInfo → List String) (first second : TableInfo) :
    Decidable (Separate touched first second) :=
  inferInstanceAs (Decidable (_ ∧ _))

/-- The children of a table are separate from each other. -/
def Table.Separated (touched : TableInfo → List String) (table : Table Node) : Prop :=
  table.tables.Pairwise fun first second => Separate touched first.info second.info

instance (touched : TableInfo → List String) (table : Table Node) :
    Decidable (table.Separated touched) :=
  inferInstanceAs (Decidable (List.Pairwise _ _))

namespace Located

/-- No object of one table lies inside an object of the other. -/
def Separate (first second : Located) : Prop :=
  ∀ path ∈ first.paths, ∀ other ∈ second.paths, Apart path other

/-- Neither boundary writes what the other touches. -/
def Independent (touched : TableInfo → List String) (first second : Located) : Prop :=
  ∀ path ∈ first.paths, ∀ other ∈ second.paths,
    (∀ name ∈ touched first.table.info,
      Apart (path ++ [name]) (other ++ [second.table.info.fieldName])) ∧
    (∀ name ∈ touched second.table.info,
      Apart (other ++ [name]) (path ++ [first.table.info.fieldName]))

theorem Independent.symm {touched : TableInfo → List String} {first second : Located}
    (h : Independent touched first second) : Independent touched second first :=
  fun path hpath other hother => (h other hother path hpath).symm

theorem Independent.of_separate {touched : TableInfo → List String} {first second : Located}
    (h : Separate first second) : Independent touched first second := by
  intro path hpath other hother
  have hapart := h path hpath other hother
  exact ⟨fun _ _ => hapart.append _ _, fun _ _ => hapart.symm.append _ _⟩

/-- What is fetched for independent boundaries lies apart. -/
theorem Independent.separate_fetched {touched : TableInfo → List String}
    (htouched : ∀ info, info.fieldName ∈ touched info) {first second fetched other : Located}
    (h : Independent touched first second) (hfetched : FetchedFor first fetched)
    (hother : FetchedFor second other) : Separate fetched other := by
  intro inner hinner another hanother
  obtain ⟨path, hpath, hstart⟩ := hfetched.inField inner hinner
  obtain ⟨parent, hparent, hbelow⟩ := hother.inField another hanother
  exact ((h path hpath parent hparent).1 _ (htouched _)).of_starts hstart hbelow

end Located

section Independent

variable {touched : TableInfo → List String} {root table child : Table Node} {data found : Json}
  {paths : List Path} {boundary : Located} {level : List Located}

/-- A boundary below a child touches nothing outside what the child touches in the objects
of its parent. -/
theorem exists_touched_of_mem_boundaries (hapart : paths.Pairwise Apart)
    (htouched : child.info.fieldName ∈ touched child.info)
    (h : boundary ∈ (Node.table child).boundaries data (paths.map ofPath)) {inner : Path}
    (hinner : inner ∈ boundary.paths) :
    ∃ path ∈ paths,
      (path ++ [child.info.fieldName] <+: inner ++ [boundary.table.info.fieldName]) ∧
        ∀ name ∈ touched boundary.table.info, ∃ member ∈ touched child.info,
          path ++ [member] <+: inner ++ [name] := by
  rw [Node.boundaries_table] at h
  split at h
  · obtain rfl := List.mem_singleton.mp h
    rw [Located.paths_mk] at hinner
    exact ⟨inner, hinner, List.prefix_rfl, fun name hname => ⟨name, hname, List.prefix_rfl⟩⟩
  · obtain ⟨-, -, -, hbelow⟩ := placed_of_mem_boundaries (pairwise_nestedPaths hapart) h
    obtain ⟨nested, hnested, hstart⟩ := hbelow inner hinner
    obtain ⟨path, hpath, hfield⟩ := exists_prefix_of_mem_nestedPaths hnested
    have hlonger : ∀ name, path ++ [child.info.fieldName] <+: inner ++ [name] := fun name =>
      (hfield.trans hstart).trans (List.prefix_append _ _)
    exact ⟨path, hpath, hlonger _, fun name _ => ⟨_, htouched, hlonger name⟩⟩

/-- Boundaries below separate children of a table do not meet. -/
theorem independent_of_separate_children (htouched : ∀ info, info.fieldName ∈ touched info)
    (hapart : paths.Pairwise Apart) {other : Table Node} {second : Located}
    (hseparate : Separate touched child.info other.info)
    (hfirst : boundary ∈ (Node.table child).boundaries data (paths.map ofPath))
    (hsecond : second ∈ (Node.table other).boundaries data (paths.map ofPath)) :
    Located.Independent touched boundary second := by
  have hmembers : ∀ {first another : Path} {name member : String}, first ∈ paths →
      another ∈ paths → name ≠ member → Apart (first ++ [name]) (another ++ [member]) := by
    intro first another name member hmem hanother hne
    by_cases heq : first = another
    · subst heq
      exact (Json.apart_append_iff _).mpr (Json.apart_cons_of_ne hne [] [])
    · have hsymm : Std.Symm Apart := ⟨fun _ _ => Apart.symm⟩
      exact (hapart.forall hmem hanother heq).append _ _
  intro inner hinner nested hnested
  obtain ⟨path, hpath, hfield, hnames⟩ :=
    exists_touched_of_mem_boundaries hapart (htouched child.info) hfirst hinner
  obtain ⟨parent, hparent, hwritten, hothers⟩ :=
    exists_touched_of_mem_boundaries hapart (htouched other.info) hsecond hnested
  constructor
  · intro name hname
    obtain ⟨member, hmember, hstart⟩ := hnames name hname
    have hne : member ≠ other.info.fieldName := fun heq => hseparate.1 (heq ▸ hmember)
    exact (hmembers hpath hparent hne).of_starts hstart hwritten
  · intro name hname
    obtain ⟨member, hmember, hstart⟩ := hothers name hname
    have hne : member ≠ child.info.fieldName := fun heq => hseparate.2 (heq ▸ hmember)
    exact (hmembers hparent hpath hne).of_starts hstart hfield

theorem pairwise_independent_boundaries (htouched : ∀ info, info.fieldName ∈ touched info)
    (hseparated : ∀ inner ∈ table.subtree, inner.Separated touched)
    (hapart : paths.Pairwise Apart) :
    (table.boundaries data (paths.map ofPath)).Pairwise (Located.Independent touched) := by
  induction table using Table.induction generalizing paths with
  | step table ih =>
      rw [Table.boundaries_eq]
      split
      · exact List.Pairwise.nil
      · apply List.pairwise_flatMap.mpr
        constructor
        · intro child hchild
          rw [Node.boundaries_table]
          split
          · exact List.pairwise_singleton _ _
          · apply ih child hchild _ (pairwise_nestedPaths hapart)
            intro inner hinner
            exact hseparated inner (Table.mem_subtree_of_mem_tables hchild hinner)
        · apply (hseparated table table.mem_subtree_self).imp
          intro first second hseparate boundary hboundary other hother
          exact independent_of_separate_children htouched hapart hseparate hboundary hother

/-- The boundaries of tables whose objects lie apart do not meet. -/
theorem pairwise_levelBoundaries (htouched : ∀ info, info.fieldName ∈ touched info)
    (hseparated : ∀ table ∈ root.subtree, table.Separated touched)
    (hin : ∀ located ∈ level, InPlan root located) (hlevel : level.Pairwise Located.Separate) :
    (levelBoundaries found level).Pairwise (Located.Independent touched) := by
  apply List.pairwise_flatMap.mpr
  constructor
  · intro located hlocated
    have hplan := hin located hlocated
    rw [hplan.placed.objects]
    apply pairwise_independent_boundaries htouched _ hplan.placed.apart
    intro inner hinner
    exact hseparated inner ((Table.subtree_sublist _ hplan.table).subset hinner)
  · apply hlevel.imp_of_mem
    intro first second hfirst hsecond hseparate boundary hboundary other hother
    rw [(hin first hfirst).placed.objects] at hboundary
    rw [(hin second hsecond).placed.objects] at hother
    obtain ⟨-, -, -, hbelow⟩ := placed_of_mem_boundaries (hin first hfirst).placed.apart hboundary
    obtain ⟨-, -, -, hothers⟩ :=
      placed_of_mem_boundaries (hin second hsecond).placed.apart hother
    apply Located.Independent.of_separate
    intro inner hinner nested hnested
    obtain ⟨path, hpath, hstart⟩ := hbelow inner hinner
    obtain ⟨parent, hparent, hlonger⟩ := hothers nested hnested
    exact (hseparate path hpath parent hparent).of_starts hstart hlonger

/-- A relation between the items of one list holds between those of another that
correspond to them. -/
theorem pairwise_of_forall₂ {α β : Type} {R : α → β → Prop} {S : α → α → Prop}
    {T : β → β → Prop} {items : List α} {others : List β} (h : List.Forall₂ R items others)
    (hitems : items.Pairwise S)
    (himp : ∀ {a a' b b'}, S a a' → R a b → R a' b' → T b b') : others.Pairwise T := by
  induction h with
  | nil => exact List.Pairwise.nil
  | @cons item other rest more hitem hrest ih =>
      rw [List.pairwise_cons] at hitems ⊢
      refine ⟨?_, ih hitems.2⟩
      intro later hlater
      obtain ⟨index, hindex, rfl⟩ := List.getElem_of_mem hlater
      have hsame : index < rest.length := by rwa [hrest.length_eq]
      exact himp (hitems.1 _ (List.getElem_mem hsame)) hitem
        (hrest.get hsame hindex)

theorem pairwise_separate_of_splice (htouched : ∀ info, info.fieldName ∈ touched info)
    (hseparated : ∀ table ∈ root.subtree, table.Separated touched)
    (hin : ∀ located ∈ level, InPlan root located) (hlevel : level.Pairwise Located.Separate)
    {groups : List Groups} {after : Json} {later : List Located}
    (h : spliceLevel ((levelBoundaries found level).zip groups) data = .ok (after, later)) :
    later.Pairwise Located.Separate := by
  apply pairwise_of_forall₂ (forall₂_of_spliceLevel_zip hin h)
    ((pairwise_levelBoundaries htouched hseparated hin hlevel).sublist (fst_zip_sublist _ _))
  intro first second fetched other hindependent hfetched hother
  exact hindependent.separate_fetched htouched hfetched hother

theorem Level.pairwise_separate (htouched : ∀ info, info.fieldName ∈ touched info)
    (hseparated : ∀ table ∈ root.subtree, table.Separated touched)
    (hlevel : Level root level) : level.Pairwise Located.Separate := by
  induction hlevel with
  | root data => exact List.pairwise_singleton _ _
  | next hbefore hsplice ih =>
      exact pairwise_separate_of_splice htouched hseparated hbefore.inPlan ih hsplice

end Independent

end JoinPlan.Plan
