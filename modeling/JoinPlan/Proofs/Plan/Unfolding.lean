import JoinPlan.Proofs.Assoc
import JoinPlan.Proofs.Plan.Rewriting
import Mathlib.Data.List.Perm.Subperm
import Mathlib.Logic.Relation

/-!
# Unfolding fragments

A request whose fragments do not spread each other in a circle can be written without them:
every spread is replaced by the fragment's selections, under its condition.  A way from
fragment to fragment then has no fragment twice, so following fragments as deep as there are
fragments follows every way to its end.
-/

namespace JoinPlan

/-- Induction over selections, those below a field or a fragment included. -/
@[elab_as_elim]
theorem selections_induction {motive : List Selection → Prop} (nil : motive [])
    (field : ∀ name args inner rest, motive inner → motive rest →
      motive (.field name args inner :: rest))
    (inline : ∀ condition inner rest, motive inner → motive rest →
      motive (.inline condition inner :: rest))
    (spread : ∀ name rest, motive rest → motive (.spread name :: rest)) :
    ∀ selections, motive selections
  | [] => nil
  | .field name args inner :: rest =>
      field name args inner rest (selections_induction nil field inline spread inner)
        (selections_induction nil field inline spread rest)
  | .inline condition inner :: rest =>
      inline condition inner rest (selections_induction nil field inline spread inner)
        (selections_induction nil field inline spread rest)
  | .spread name :: rest => spread name rest (selections_induction nil field inline spread rest)

/-! ### Fragments that spread each other -/

mutual

/-- The fragments spread anywhere in selections. -/
def spreadNames : List Selection → List String
  | [] => []
  | selection :: rest => selection.spreadNames ++ JoinPlan.spreadNames rest

def Selection.spreadNames : Selection → List String
  | .field _ _ selections => JoinPlan.spreadNames selections
  | .inline _ selections => JoinPlan.spreadNames selections
  | .spread name => [name]

end

namespace Fragments

variable (fragments : Fragments)

/-- A fragment spreads another one. -/
def Spreads (name other : String) : Prop :=
  ∃ fragment, fragments.named? name = some fragment ∧ other ∈ spreadNames fragment.selections

/-- No fragment spreads itself, be it through others. -/
def Acyclic : Prop := ∀ name, ¬ Relation.TransGen fragments.Spreads name name

/-- Following a fragment, and those it spreads, ends within so many steps. -/
def EndsWithin : Nat → String → Prop
  | 0, name => fragments.named? name = none
  | depth + 1, name => ∀ fragment, fragments.named? name = some fragment →
      ∀ other ∈ spreadNames fragment.selections, EndsWithin depth other

variable {fragments}

theorem acyclic_of_rank (rank : String → Nat)
    (h : ∀ name other, fragments.Spreads name other → rank other < rank name) :
    fragments.Acyclic := by
  have hlower {name other : String} (hway : Relation.TransGen fragments.Spreads name other) :
      rank other < rank name := by
    induction hway with
    | single hspreads => exact h _ _ hspreads
    | tail _ hspreads ih => exact Nat.lt_trans (h _ _ hspreads) ih
  exact fun name hway => Nat.lt_irrefl _ (hlower hway)

/-- A way along fragments that do not spread each other in a circle ends before it has all of
them. -/
theorem Acyclic.endsWithin_of_way (hacyclic : fragments.Acyclic) (depth : Nat)
    {way : List String} {name : String} (hlength : fragments.length ≤ depth + way.length)
    (hnodup : way.Nodup) (hdefined : ∀ earlier ∈ way, (fragments.named? earlier).isSome)
    (hreaches : ∀ earlier ∈ way, Relation.TransGen fragments.Spreads earlier name) :
    fragments.EndsWithin depth name := by
  have hnew : name ∉ way := fun hmem => hacyclic name (hreaches name hmem)
  have hnodupWay : (name :: way).Nodup := List.nodup_cons.mpr ⟨hnew, hnodup⟩
  induction depth generalizing way name with
  | zero =>
      by_contra hsome
      have hkeys : ∀ earlier ∈ name :: way, earlier ∈ Assoc.keys fragments := by
        intro earlier hearlier
        have hisSome : (fragments.named? earlier).isSome := by
          rcases List.mem_cons.mp hearlier with rfl | hmem
          · exact Option.isSome_iff_ne_none.mpr hsome
          · exact hdefined earlier hmem
        obtain ⟨fragment, hfragment⟩ := Option.isSome_iff_exists.mp hisSome
        exact List.mem_map_of_mem (Assoc.mem_of_get?_eq_some hfragment)
      have hle := (List.subperm_of_subset hnodupWay hkeys).length_le
      rw [Assoc.keys, List.length_map, List.length_cons] at hle
      omega
  | succ depth ih =>
      intro fragment hfragment other hother
      have hstep : fragments.Spreads name other := ⟨fragment, hfragment, hother⟩
      have hreachesOther : ∀ earlier ∈ name :: way,
          Relation.TransGen fragments.Spreads earlier other :=
        List.forall_mem_cons.mpr ⟨.single hstep, fun earlier hmem =>
          (hreaches earlier hmem).tail hstep⟩
      have hfresh : other ∉ name :: way := fun hmem => hacyclic other (hreachesOther other hmem)
      have hdefinedWay : ∀ earlier ∈ name :: way, (fragments.named? earlier).isSome :=
        List.forall_mem_cons.mpr ⟨by rw [hfragment]; rfl, hdefined⟩
      exact ih (by rw [List.length_cons]; omega) hnodupWay hdefinedWay hreachesOther hfresh
        (List.nodup_cons.mpr ⟨hfresh, hnodupWay⟩)

/-- Fragments that do not spread each other in a circle are followed to the end. -/
theorem Acyclic.endsWithin_depth (hacyclic : fragments.Acyclic) (name : String) :
    fragments.EndsWithin fragments.depth name := by
  have hlength : fragments.length ≤ fragments.depth + ([] : List String).length := by
    rw [depth, repetitionLimit]
    omega
  exact hacyclic.endsWithin_of_way _ hlength List.nodup_nil (List.forall_mem_nil _)
    (List.forall_mem_nil _)

end Fragments

/-! ### Replacing spreads -/

mutual

/-- Selections with every spread replaced. -/
def replaceSpreads (replace : String → Selection) : List Selection → List Selection
  | [] => []
  | selection :: rest => selection.replaceSpreads replace :: JoinPlan.replaceSpreads replace rest

def Selection.replaceSpreads (replace : String → Selection) : Selection → Selection
  | .field name args selections => .field name args (JoinPlan.replaceSpreads replace selections)
  | .inline condition selections =>
      .inline condition (JoinPlan.replaceSpreads replace selections)
  | .spread name => replace name

end

theorem replaceSpreads_append (replace : String → Selection) (first second : List Selection) :
    replaceSpreads replace (first ++ second) =
      replaceSpreads replace first ++ replaceSpreads replace second := by
  induction first with
  | nil => rfl
  | cons selection rest ih =>
      rw [List.cons_append, replaceSpreads, replaceSpreads, ih, List.cons_append]

namespace Fragments

variable (fragments : Fragments)

/-- What stands for a spread: the fragment's selections under its condition, fragments being
followed so deep.  An undefined fragment stays a spread. -/
def inlined : Nat → String → Selection
  | 0, name => .spread name
  | depth + 1, name =>
      match fragments.named? name with
      | none => .spread name
      | some fragment =>
          .inline (some fragment.condition) (replaceSpreads (inlined depth) fragment.selections)

/-- Selections without spreads of the fragments. -/
def unfold (selections : List Selection) : List Selection :=
  replaceSpreads (fragments.inlined fragments.depth) selections

theorem unfold_inRow : RewritesInRow fun selections others => others = fragments.unfold selections
    where
  nil := rfl
  append := by
    rintro first second _ _ rfl rfl
    exact (replaceSpreads_append _ _ _).symm

end Fragments

/-- The request with every spread of a fragment replaced. -/
def Request.unfolded (request : Request) : Request where
  parentType := request.parentType
  fields := request.fields.map fun field =>
    { field with selections := request.fragments.unfold field.selections }
  fragments := Assoc.mapValues
    (fun fragment => { fragment with selections := request.fragments.unfold fragment.selections })
    request.fragments

theorem Request.unfolded_rewritten (request : Request) :
    request.Rewritten (fun selections others => others = request.fragments.unfold selections)
      request.unfolded where
  parentType := rfl
  fields := List.forall₂_map_right_iff.mpr (List.forall₂_same.mpr fun _ _ => ⟨rfl, rfl, rfl⟩)
  fragments :=
    List.forall₂_map_right_iff.mpr (List.forall₂_same.mpr fun _ _ => ⟨rfl, rfl, rfl⟩)

end JoinPlan
