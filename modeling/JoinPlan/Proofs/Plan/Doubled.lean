import JoinPlan.Plan.Compile
import JoinPlan.Proofs.Plan.FieldKinds
import Mathlib.Logic.Relation

/-!
# Fields selected twice in a row

Selections in which pairs of one field with the same arguments are marked can be read in two
ways: with the field selected twice, or once with the selections of both.  A walk through the
selections as they are compiled tells what the field of a pair is where it stands.
-/

namespace JoinPlan

/-- Selections in which fields selected twice in a row are marked. -/
inductive Doubled
  | nil
  | field (name : String) (args : Arguments) (inner rest : Doubled)
  | inline (condition : Option String) (inner rest : Doubled)
  | spread (fragment : String) (rest : Doubled)
  | twice (name : String) (args : Arguments) (first second rest : Doubled)

namespace Doubled

/-- The selections with every marked field twice. -/
def apart : Doubled → List Selection
  | .nil => []
  | .field name args inner rest => .field name args inner.apart :: rest.apart
  | .inline condition inner rest => .inline condition inner.apart :: rest.apart
  | .spread fragment rest => .spread fragment :: rest.apart
  | .twice name args first second rest =>
      .field name args first.apart :: .field name args second.apart :: rest.apart

/-- The selections with every marked field once. -/
def merged : Doubled → List Selection
  | .nil => []
  | .field name args inner rest => .field name args inner.merged :: rest.merged
  | .inline condition inner rest => .inline condition inner.merged :: rest.merged
  | .spread fragment rest => .spread fragment :: rest.merged
  | .twice name args first second rest =>
      .field name args (first.merged ++ second.merged) :: rest.merged

def append : Doubled → Doubled → Doubled
  | .nil, others => others
  | .field name args inner rest, others => .field name args inner (rest.append others)
  | .inline condition inner rest, others => .inline condition inner (rest.append others)
  | .spread fragment rest, others => .spread fragment (rest.append others)
  | .twice name args first second rest, others =>
      .twice name args first second (rest.append others)

theorem apart_append (selections others : Doubled) :
    (selections.append others).apart = selections.apart ++ others.apart := by
  induction selections with
  | nil => rfl
  | field _ _ _ _ _ ih | inline _ _ _ _ ih | spread _ _ ih | twice _ _ _ _ _ _ _ ih =>
      simp only [append, apart, ih, List.cons_append]

theorem merged_append (selections others : Doubled) :
    (selections.append others).merged = selections.merged ++ others.merged := by
  induction selections with
  | nil => rfl
  | field _ _ _ _ _ ih | inline _ _ _ _ ih | spread _ _ ih | twice _ _ _ _ _ _ _ ih =>
      simp only [append, merged, ih, List.cons_append]

/-- The first of the selections and those after it, unless it is a marked field. -/
def first? : Doubled → Option (Selection × Doubled)
  | .field name args inner rest => some (.field name args inner.apart, rest)
  | .inline condition inner rest => some (.inline condition inner.apart, rest)
  | .spread fragment rest => some (.spread fragment, rest)
  | .nil | .twice _ _ _ _ _ => none

/-- Selections without a marked field. -/
def IsSingle : Doubled → Prop
  | .nil => True
  | .field _ _ inner rest | .inline _ inner rest => inner.IsSingle ∧ rest.IsSingle
  | .spread _ rest => rest.IsSingle
  | .twice _ _ _ _ _ => False

theorem IsSingle.rest {selections rest : Doubled} {selection : Selection}
    (h : selections.IsSingle) (hfirst : selections.first? = some (selection, rest)) :
    rest.IsSingle := by
  cases selections with
  | nil | twice => cases hfirst
  | field | inline =>
      obtain ⟨-, rfl⟩ := Prod.mk.inj (Option.some.inj hfirst)
      exact h.2
  | spread =>
      obtain ⟨-, rfl⟩ := Prod.mk.inj (Option.some.inj hfirst)
      exact h

end Doubled

structure DoubledField where
  name : String
  args : Arguments
  selections : Doubled

structure DoubledFragment where
  condition : String
  selections : Doubled

abbrev DoubledFragments := List (String × DoubledFragment)

/-- Fragments with their selections read in one way. -/
def DoubledFragments.read (reading : Doubled → List Selection) (fragments : DoubledFragments) :
    Fragments :=
  Assoc.mapValues (fun fragment => ⟨fragment.condition, reading fragment.selections⟩) fragments

abbrev DoubledFragments.apart (fragments : DoubledFragments) : Fragments :=
  fragments.read Doubled.apart

abbrev DoubledFragments.merged (fragments : DoubledFragments) : Fragments :=
  fragments.read Doubled.merged

/-- A request in which fields selected twice in a row are marked. -/
structure DoubledRequest where
  parentType : String
  fields : List DoubledField
  fragments : DoubledFragments

namespace DoubledRequest

/-- The request with all selections read in one way. -/
def read (reading : Doubled → List Selection) (request : DoubledRequest) : Request where
  parentType := request.parentType
  fields := request.fields.map fun field => ⟨field.name, field.args, reading field.selections⟩
  fragments := request.fragments.read reading

def apart (request : DoubledRequest) : Request := request.read Doubled.apart

def merged (request : DoubledRequest) : Request := request.read Doubled.merged

/-- The selections of all occurrences of the requested field. -/
def selections (request : DoubledRequest) : Doubled :=
  request.fields.foldr (fun field rest => field.selections.append rest) .nil

end DoubledRequest

namespace Plan

/-! ### The walk of compiling -/

/-- Where compiling stands: what is left of some selections, where they are compiled, what was
filled in so far, and how many more fragments can be followed. -/
structure Walk where
  depth : Nat
  place : Place
  scope : Scope
  bucket : Option String
  selections : Doubled
  children : Children
  names : Namespace

section Walk

variable (env : Environment) (fragments : DoubledFragments)

/-- The ways that compiling goes on, where every marked field is selected twice. -/
inductive Walk.Step : Walk → Walk → Prop
  /-- A marked field is compiled as two. -/
  | twice {walk : Walk} {name : String} {args : Arguments} {first second rest : Doubled}
      (h : walk.selections = .twice name args first second rest) :
      Step walk { walk with selections := .field name args first (.field name args second rest) }
  | rest {walk : Walk} {selection : Selection} {rest : Doubled} {children : Children}
      {names : Namespace} (h : walk.selections.first? = some (selection, rest))
      (hrun : selectOne env fragments.apart (selectSpread env fragments.apart walk.depth)
        walk.place walk.scope walk.bucket selection walk.children walk.names =
          .ok (children, names)) :
      Step walk { walk with selections := rest, children, names }
  | table {walk : Walk} {name : String} {args : Arguments} {inner rest : Doubled}
      {field : TableField} {type : TypeDefinition} {place : Place} {table : Table Node}
      {names : Namespace} (h : walk.selections = .field name args inner rest)
      (hplace : walk.place = .rows)
      (hkind : fieldKind env fragments.apart walk.scope true name args inner.apart =
        .ok (.table field type place))
      (htable : tableOf env field (existingTable (walk.children.bucket walk.bucket) name)
        walk.names = .ok (table, names)) :
      Step walk
        { walk with
          place
          scope := ⟨field.typeName, type, table.info.junction?⟩
          bucket := none
          selections := inner
          children := ⟨table.shared, table.typed⟩
          names }
  | inside {walk : Walk} {name : String} {args : Arguments} {inner rest : Doubled} {place : Place}
      (h : walk.selections = .field name args inner rest)
      (hplace : walk.place.inside? name = some place) :
      Step walk { walk with place, selections := inner }
  | inline {walk : Walk} {condition : Option String} {inner rest : Doubled}
      {target : Scope × Option String} (h : walk.selections = .inline condition inner rest)
      (hscope : inlineScope env.schema walk.place walk.scope walk.bucket condition =
        .ok (some target)) :
      Step walk { walk with scope := target.1, bucket := target.2, selections := inner }
  | spread {walk : Walk} {depth : Nat} {name : String} {rest : Doubled}
      {fragment : DoubledFragment} {target : Scope × Option String}
      (h : walk.selections = .spread name rest) (hdepth : walk.depth = depth + 1)
      (hfragment : Assoc.get? name fragments = some fragment)
      (hscope : spreadScope env.schema walk.place walk.scope walk.bucket fragment.condition =
        .ok (some target)) :
      Step walk
        { walk with
          depth
          scope := target.1
          bucket := target.2
          selections := fragment.selections }

/-- The field of a pair that is selected on rows right here is a table. -/
def Walk.Fits (walk : Walk) : Prop :=
  ∀ name args first second rest kind, walk.selections = .twice name args first second rest →
    walk.place = .rows →
    fieldKind env fragments.apart walk.scope true name args first.apart = .ok kind →
    ∃ field type place, kind = .table field type place

/-- From here on every pair is one of a table. -/
def Walk.PairsFit (walk : Walk) : Prop :=
  ∀ later, Relation.ReflTransGen (Walk.Step env fragments) walk later → later.Fits env fragments

variable {env fragments}

theorem Walk.Step.isSingle
    (hfragments : ∀ name fragment, Assoc.get? name fragments = some fragment →
      fragment.selections.IsSingle) {walk later : Walk}
    (hstep : Walk.Step env fragments walk later) (h : walk.selections.IsSingle) :
    later.selections.IsSingle := by
  cases hstep with
  | twice hselections =>
      rw [hselections] at h
      exact h.elim
  | rest hfirst => exact h.rest hfirst
  | table hselections | inside hselections | inline hselections =>
      rw [hselections] at h
      exact h.1
  | spread hselections hdepth hfragment => exact hfragments _ _ hfragment

/-- From selections without a marked field no pair is met. -/
theorem Walk.pairsFit_of_isSingle
    (hfragments : ∀ name fragment, Assoc.get? name fragments = some fragment →
      fragment.selections.IsSingle) {walk : Walk} (h : walk.selections.IsSingle) :
    walk.PairsFit env fragments := by
  intro later hlater
  have hsingle : later.selections.IsSingle := by
    induction hlater with
    | refl => exact h
    | tail _ hstep ih => exact hstep.isSingle hfragments ih
  intro name args first second rest kind hselections
  rw [hselections] at hsingle
  exact hsingle.elim

end Walk

/-- Where compiling the rows of a requested field starts. -/
inductive Walk.Start (env : Environment) (minify : Bool) (request : DoubledRequest)
    (type : TypeDefinition) : Walk → Prop
  | start {requested : DoubledField} {others : List DoubledField} {field : TableField}
      {rowType : TypeDefinition} {place : Place} {table : Table Node} {names : Namespace}
      (hfields : request.fields = requested :: others)
      (hkind : fieldKind env request.fragments.apart ⟨request.parentType, type, none⟩ false
        requested.name requested.args request.selections.apart = .ok (.table field rowType place))
      (htable : newTable env field (Namespace.fresh minify) = .ok (table, names)) :
      Start env minify request type
        { depth := request.fragments.apart.depth
          place
          scope := ⟨field.typeName, rowType, table.info.junction?⟩
          bucket := none
          selections := request.selections
          children := ⟨table.shared, table.typed⟩
          names }

/-- The marked pairs of a request that are compiled on rows are pairs of tables. -/
def PairsFit (env : Environment) (minify : Bool) (request : DoubledRequest) : Prop :=
  ∀ type walk, env.schema.type? request.parentType = some type →
    Walk.Start env minify request type walk → walk.PairsFit env request.fragments

end Plan

end JoinPlan
