import JoinPlan.Proofs.Plan.Scoping
import JoinPlan.Proofs.Plan.Unfolding

/-!
# Fragments where they are spread

On the rows of a table a fragment that is spread means its selections under its condition.
On the wrappers of a connection it does not: there a fragment that is spread is followed
whatever its condition, and a fragment without a name only if it has the wrapper's own type
or no condition at all.  So a request can be unfolded as long as the fragments it spreads on
wrappers are those of the wrappers' types.
-/

namespace JoinPlan.Plan

/-! ### The places of a request -/

/-- The type of the wrapper that selections stand on. -/
def Place.wrapper? : Place → Option String
  | .rows => none
  | .edges typeName | .connection typeName _ => some typeName

/-- Selections where they stand, on rows of a type or on the wrappers around them. -/
structure Stand where
  place : Place
  rowType : String
  selections : List Selection

/-- The ways from selections to those after and below them, by the types of the schema. -/
inductive Stand.Step (schema : Schema) (fragments : Fragments) : Stand → Stand → Prop
  | rest {place : Place} {rowType : String} {selection : Selection} {rest : List Selection} :
      Step schema fragments ⟨place, rowType, selection :: rest⟩ ⟨place, rowType, rest⟩
  | field {rowType name : String} {args : Arguments} {inner rest : List Selection}
      {type : TypeDefinition} {definition : FieldDefinition} {rows : String × Place}
      (htype : schema.type? rowType = some type) (hfield : type.field? name = some definition)
      (hrows : rowsOf? schema definition.type = some rows) :
      Step schema fragments ⟨.rows, rowType, .field name args inner :: rest⟩
        ⟨rows.2, rows.1, inner⟩
  | inside {place inside : Place} {rowType name : String} {args : Arguments}
      {inner rest : List Selection} (hinside : place.inside? name = some inside) :
      Step schema fragments ⟨place, rowType, .field name args inner :: rest⟩
        ⟨inside, rowType, inner⟩
  | inline {rowType : String} {condition : Option String} {inner rest : List Selection}
      {scope : Scope} {bucket : Option String} {target : Scope × Option String}
      (hscope : scope.IsKnown schema) (hrowType : scope.typeName = rowType)
      (happlies : rowsScope schema scope bucket condition = .ok (some target)) :
      Step schema fragments ⟨.rows, rowType, .inline condition inner :: rest⟩
        ⟨.rows, target.1.typeName, inner⟩
  | spread {rowType name : String} {rest : List Selection} {fragment : Fragment}
      {scope : Scope} {bucket : Option String} {target : Scope × Option String}
      (hfragment : fragments.named? name = some fragment) (hscope : scope.IsKnown schema)
      (hrowType : scope.typeName = rowType)
      (happlies : rowsScope schema scope bucket (some fragment.condition) = .ok (some target)) :
      Step schema fragments ⟨.rows, rowType, .spread name :: rest⟩
        ⟨.rows, target.1.typeName, fragment.selections⟩
  | inlineOnWrapper {place : Place} {wrapper rowType : String} {condition : Option String}
      {inner rest : List Selection} (hwrapper : place.wrapper? = some wrapper)
      (henters : entersWrapper wrapper condition = true) :
      Step schema fragments ⟨place, rowType, .inline condition inner :: rest⟩
        ⟨place, rowType, inner⟩
  | spreadOnWrapper {place : Place} {wrapper rowType name : String} {rest : List Selection}
      {fragment : Fragment} (hwrapper : place.wrapper? = some wrapper)
      (hfragment : fragments.named? name = some fragment) :
      Step schema fragments ⟨place, rowType, .spread name :: rest⟩
        ⟨place, rowType, fragment.selections⟩

/-- A fragment spread on a wrapper right here is one of the wrapper's type. -/
def Stand.Fits (fragments : Fragments) (stand : Stand) : Prop :=
  ∀ wrapper name rest fragment, stand.place.wrapper? = some wrapper →
    stand.selections = .spread name :: rest → fragments.named? name = some fragment →
    fragment.condition = wrapper

/-- Wherever fragments are spread on wrappers from here on, they are those of the wrappers'
types. -/
def Stand.SpreadsFit (schema : Schema) (fragments : Fragments) (stand : Stand) : Prop :=
  ∀ later, Relation.ReflTransGen (Stand.Step schema fragments) stand later → later.Fits fragments

theorem Stand.SpreadsFit.step {schema : Schema} {fragments : Fragments} {stand next : Stand}
    (h : stand.SpreadsFit schema fragments) (hstep : Stand.Step schema fragments stand next) :
    next.SpreadsFit schema fragments :=
  fun later hlater => h later (.head hstep hlater)

/-- Wherever a request spreads fragments on wrappers they are those of the wrappers' types. -/
def SpreadsFit (schema : Schema) (request : Request) : Prop :=
  ∀ field, mergedField request = .ok field →
    Stand.SpreadsFit schema request.fragments
      ⟨.rows, request.parentType, [.field field.name field.args field.selections]⟩

section Unfold

variable {schema : Schema} {fragments others : Fragments}

/-! ### Undefined fragments on wrappers -/

theorem undefinedBelow_of_undefined {typeName : String}
    {field : String → List Selection → Option String} {name : String}
    (h : fragments.named? name = none) (depth : Nat) :
    undefinedBelow fragments typeName field depth name = some name := by
  cases depth with
  | zero => rfl
  | succ depth => rw [undefinedBelow, h]

theorem entersWrapper_self (wrapper : String) : entersWrapper wrapper (some wrapper) = true :=
  beq_self_eq_true wrapper

section Wrapper

variable {place : Place} {wrapper rowType : String}
  {field another : String → List Selection → Option String}

theorem undefinedAmong_replaceSpreads (hwrapper : place.wrapper? = some wrapper)
    {good : String → Prop} {spread other : String → Option String} {replace : String → Selection}
    (hfield : ∀ name args inner rest, (∀ below ∈ spreadNames inner, good below) →
      Stand.SpreadsFit schema fragments ⟨place, rowType, .field name args inner :: rest⟩ →
      field name inner = another name (replaceSpreads replace inner))
    (hspread : ∀ name rest, good name →
      Stand.SpreadsFit schema fragments ⟨place, rowType, .spread name :: rest⟩ →
      spread name = undefinedAt wrapper another other (replace name))
    {selections : List Selection} (hgood : ∀ name ∈ spreadNames selections, good name)
    (hfits : Stand.SpreadsFit schema fragments ⟨place, rowType, selections⟩) :
    undefinedAmong wrapper field spread selections =
      undefinedAmong wrapper another other (replaceSpreads replace selections) := by
  induction selections using selections_induction with
  | nil => rfl
  | field name args inner rest _ ih =>
      obtain ⟨hinner, hrest⟩ := List.forall_mem_append.mp hgood
      rw [replaceSpreads, Selection.replaceSpreads, undefinedAmong, undefinedAmong, undefinedAt,
        undefinedAt, hfield name args inner rest hinner hfits, ih hrest (hfits.step .rest)]
  | inline condition inner rest ihinner ih =>
      obtain ⟨hinner, hrest⟩ := List.forall_mem_append.mp hgood
      rw [replaceSpreads, Selection.replaceSpreads, undefinedAmong, undefinedAmong, undefinedAt,
        undefinedAt, ih hrest (hfits.step .rest)]
      cases henters : entersWrapper wrapper condition with
      | false => rfl
      | true =>
          rw [if_pos rfl, if_pos rfl,
            ihinner hinner (hfits.step (.inlineOnWrapper hwrapper henters))]
  | spread name rest ih =>
      obtain ⟨hname, hrest⟩ := List.forall_mem_cons.mp hgood
      rw [replaceSpreads, Selection.replaceSpreads, undefinedAmong, undefinedAmong, undefinedAt,
        hspread name rest hname hfits, ih hrest (hfits.step .rest)]

/-- A fragment of a wrapper's type is followed on the wrapper with or without its name. -/
theorem undefinedBelow_eq_inlined (hundefined : ∀ name, fragments.named? name = none →
      others.named? name = none)
    (hwrapper : place.wrapper? = some wrapper) {limit : Nat}
    (hfield : ∀ depth ≤ limit, ∀ name args inner rest,
      (∀ below ∈ spreadNames inner, fragments.EndsWithin depth below) →
      Stand.SpreadsFit schema fragments ⟨place, rowType, .field name args inner :: rest⟩ →
      field name inner = another name (replaceSpreads (fragments.inlined depth) inner))
    (deep : Nat) {depth followed : Nat} (hlimit : depth ≤ limit) (hfollowed : depth ≤ followed)
    {name : String} {rest : List Selection} (hends : fragments.EndsWithin depth name)
    (hfits : Stand.SpreadsFit schema fragments ⟨place, rowType, .spread name :: rest⟩) :
    undefinedBelow fragments wrapper field followed name =
      undefinedAt wrapper another (undefinedBelow others wrapper another deep)
        (fragments.inlined depth name) := by
  have hnone (followed : Nat) (name : String) (hname : fragments.named? name = none) :
      undefinedBelow fragments wrapper field followed name =
        undefinedAt wrapper another (undefinedBelow others wrapper another deep)
          (.spread name) := by
    rw [undefinedAt, undefinedBelow_of_undefined hname,
      undefinedBelow_of_undefined (hundefined name hname)]
  induction depth generalizing name rest followed with
  | zero => exact hnone followed name hends
  | succ depth ih =>
      rw [Fragments.inlined]
      cases hfragment : fragments.named? name with
      | none => exact hnone followed name hfragment
      | some fragment =>
          cases followed with
          | zero => omega
          | succ followed =>
              have henters : entersWrapper wrapper (some fragment.condition) = true := by
                rw [hfits _ .refl wrapper name rest fragment hwrapper rfl hfragment]
                exact entersWrapper_self wrapper
              rw [undefinedBelow, hfragment]
              dsimp only
              rw [undefinedAt, if_pos henters]
              exact undefinedAmong_replaceSpreads hwrapper (hfield depth (by omega))
                (fun other rest hother hrest => ih (by omega) (by omega) hother hrest)
                (hends fragment hfragment)
                (hfits.step (.spreadOnWrapper hwrapper hfragment))

theorem undefinedOn_unfold (hundefined : ∀ name, fragments.named? name = none →
      others.named? name = none)
    (hwrapper : place.wrapper? = some wrapper)
    (hfield : ∀ depth ≤ fragments.depth, ∀ name args inner rest,
      (∀ below ∈ spreadNames inner, fragments.EndsWithin depth below) →
      Stand.SpreadsFit schema fragments ⟨place, rowType, .field name args inner :: rest⟩ →
      field name inner = another name (replaceSpreads (fragments.inlined depth) inner))
    {depth : Nat} (hlimit : depth ≤ fragments.depth) {selections : List Selection}
    (hends : ∀ name ∈ spreadNames selections, fragments.EndsWithin depth name)
    (hfits : Stand.SpreadsFit schema fragments ⟨place, rowType, selections⟩) :
    undefinedOn fragments wrapper field selections =
      undefinedOn others wrapper another (replaceSpreads (fragments.inlined depth) selections) :=
  undefinedAmong_replaceSpreads hwrapper (hfield depth hlimit)
    (fun _ _ hname hrest => undefinedBelow_eq_inlined hundefined hwrapper hfield others.depth hlimit
      hlimit hname hrest) hends hfits

end Wrapper

theorem undefinedIn_unfold (hundefined : ∀ name, fragments.named? name = none →
      others.named? name = none)
    {depth : Nat} (hlimit : depth ≤ fragments.depth) {place : Place} {rowType : String}
    {selections : List Selection}
    (hends : ∀ name ∈ spreadNames selections, fragments.EndsWithin depth name)
    (hfits : Stand.SpreadsFit schema fragments ⟨place, rowType, selections⟩) :
    undefinedIn fragments selections place =
      undefinedIn others (replaceSpreads (fragments.inlined depth) selections) place := by
  cases place with
  | rows | edges typeName => rfl
  | connection connectionType edgeType =>
      rw [undefinedIn, undefinedIn, undefinedInConnection, undefinedInConnection]
      congr 1
      · exact undefinedOn_unfold hundefined rfl (fun _ _ _ _ _ _ _ _ => rfl) hlimit hends hfits
      · funext _
        refine undefinedOn_unfold hundefined rfl (fun depth hlimit name args inner rest hinner
          hfield => ?_) hlimit hends hfits
        split
        · rename_i hname
          subst hname
          have hinside : (Place.connection connectionType edgeType).inside? "edges" =
              some (.edges edgeType) := rfl
          exact undefinedOn_unfold hundefined rfl (fun _ _ _ _ _ _ _ _ => rfl) hlimit hinner
            (hfield.step (.inside hinside))
        · rfl

/-- Whether a field's wrappers have undefined fragments does not change. -/
theorem undefined?_unfold {env : Environment} (hundefined : ∀ name,
      fragments.named? name = none → others.named? name = none)
    {depth : Nat} (hlimit : depth ≤ fragments.depth) {scope : Scope}
    (hscope : scope.IsKnown env.schema) {name : String} {args : Arguments}
    {inner rest : List Selection}
    (hends : ∀ below ∈ spreadNames inner, fragments.EndsWithin depth below)
    (hfits : Stand.SpreadsFit env.schema fragments
      ⟨.rows, scope.typeName, .field name args inner :: rest⟩) :
    scope.undefined? env fragments name inner =
      scope.undefined? env others name (replaceSpreads (fragments.inlined depth) inner) := by
  unfold Scope.undefined? undefinedInField
  cases hfound : scope.field? name with
  | none => rfl
  | some found =>
      obtain ⟨definition, hdefinition, htype⟩ := definition_of_field? hfound
      simp only [Option.bind_eq_bind, Option.bind_some]
      cases hrows : rowsOf? env.schema found.type with
      | none => rfl
      | some rows =>
          rw [htype] at hrows
          exact undefinedIn_unfold hundefined hlimit hends
            (hfits.step (.field hscope hdefinition hrows))

/-! ### Selections -/

theorem selectSpread_of_undefined {env : Environment} {place : Place} {scope : Scope}
    {bucket : Option String} {name : String} {children : Children}
    (h : fragments.named? name = none) (depth : Nat) :
    selectSpread env fragments depth place scope bucket name children =
      Compile.fail (.unknownFragment name) := by
  cases depth with
  | zero => rfl
  | succ depth => rw [selectSpread, h]

theorem Stand.Step.of_inlineScope {place : Place} {scope : Scope} {bucket condition : Option String}
    {target : Scope × Option String} (hscope : scope.IsKnown schema)
    (h : inlineScope schema place scope bucket condition = .ok (some target))
    {inner rest : List Selection} :
    Stand.Step schema fragments ⟨place, scope.typeName, .inline condition inner :: rest⟩
      ⟨place, target.1.typeName, inner⟩ := by
  cases place with
  | rows => exact .inline hscope rfl h
  | edges typeName | connection typeName edgeType =>
      rw [inlineScope] at h
      split at h
      · rename_i henters
        obtain rfl := Option.some.inj (Except.ok.inj h)
        exact .inlineOnWrapper rfl henters
      · cases h

theorem Stand.Step.of_spreadScope {place : Place} {scope : Scope} {bucket : Option String}
    {name : String} {fragment : Fragment} {target : Scope × Option String}
    (hfragment : fragments.named? name = some fragment) (hscope : scope.IsKnown schema)
    (h : spreadScope schema place scope bucket fragment.condition = .ok (some target))
    {rest : List Selection} :
    Stand.Step schema fragments ⟨place, scope.typeName, .spread name :: rest⟩
      ⟨place, target.1.typeName, fragment.selections⟩ := by
  cases place with
  | rows => exact .spread hfragment hscope rfl h
  | edges typeName | connection typeName edgeType =>
      obtain rfl := Option.some.inj (Except.ok.inj h)
      exact .spreadOnWrapper rfl hfragment

/-- A fragment of the wrapper's type applies where it is spread if it does without its name. -/
theorem spreadScope_eq_inlineScope {place : Place} {condition : String}
    (hwrapper : ∀ wrapper, place.wrapper? = some wrapper → condition = wrapper) (scope : Scope)
    (bucket : Option String) :
    spreadScope schema place scope bucket condition =
      inlineScope schema place scope bucket (some condition) := by
  cases place with
  | rows => rfl
  | edges typeName | connection typeName edgeType =>
      obtain rfl := hwrapper typeName rfl
      rw [spreadScope, inlineScope, if_pos (entersWrapper_self condition)]

section Select

variable {env : Environment}

theorem select_replaceSpreads {spread other : SpreadCompiler} {good : String → Prop}
    {replace : String → Selection}
    (hfield : ∀ (scope : Scope) name args inner rest, scope.IsKnown env.schema →
      (∀ below ∈ spreadNames inner, good below) →
      Stand.SpreadsFit env.schema fragments
        ⟨.rows, scope.typeName, .field name args inner :: rest⟩ →
      scope.undefined? env fragments name inner =
        scope.undefined? env others name (replaceSpreads replace inner))
    (hspread : ∀ place (scope : Scope) bucket name rest children, scope.IsKnown env.schema →
      good name →
      Stand.SpreadsFit env.schema fragments ⟨place, scope.typeName, .spread name :: rest⟩ →
      spread place scope bucket name children =
        selectOne env others other place scope bucket (replace name) children)
    {selections : List Selection} (hgood : ∀ name ∈ spreadNames selections, good name)
    {place : Place} {scope : Scope} (hscope : scope.IsKnown env.schema)
    (hfits : Stand.SpreadsFit env.schema fragments ⟨place, scope.typeName, selections⟩)
    (bucket : Option String) (children : Children) :
    select env fragments spread place scope bucket selections children =
      select env others other place scope bucket (replaceSpreads replace selections) children := by
  induction selections using selections_induction generalizing place scope bucket children with
  | nil => rw [replaceSpreads, select, select]
  | field name args inner rest ihinner ih =>
      obtain ⟨hinner, hrest⟩ := List.forall_mem_append.mp hgood
      rw [replaceSpreads, Selection.replaceSpreads]
      refine select_cons_congr (selectOne_field_congr ?_ ?_ ?_) (ih hrest hscope (hfits.step .rest)
        bucket)
      · rintro rfl
        exact hfield scope name args inner rest hscope hinner hfits
      · rintro rfl found standing below children hfound hrows hknown
        obtain ⟨definition, hdefinition, htype⟩ := definition_of_field? hfound
        exact ihinner hinner hknown
          (hfits.step (.field hscope hdefinition (htype ▸ hrows))) none children
      · intro inside hinside
        exact ihinner hinner hscope (hfits.step (.inside hinside)) bucket children
  | inline condition inner rest ihinner ih =>
      obtain ⟨hinner, hrest⟩ := List.forall_mem_append.mp hgood
      rw [replaceSpreads, Selection.replaceSpreads]
      refine select_cons_congr (selectOne_inline_congr fun target htarget => ?_)
        (ih hrest hscope (hfits.step .rest) bucket)
      exact ihinner hinner (inlineScope_isKnown hscope htarget)
        (hfits.step (.of_inlineScope hscope htarget)) target.2 children
  | spread name rest ih =>
      obtain ⟨hname, hrest⟩ := List.forall_mem_cons.mp hgood
      rw [replaceSpreads, Selection.replaceSpreads]
      refine select_cons_congr ?_ (ih hrest hscope (hfits.step .rest) bucket)
      rw [selectOne, hspread place scope bucket name rest children hscope hname hfits]

/-- Compiling a spread is compiling what stands for it. -/
theorem selectSpread_eq_inlined (hundefined : ∀ name, fragments.named? name = none →
      others.named? name = none)
    (deep : Nat) {depth : Nat} (hlimit : depth ≤ fragments.depth) {place : Place} {scope : Scope}
    (hscope : scope.IsKnown env.schema) {name : String} {rest : List Selection}
    (hends : fragments.EndsWithin depth name)
    (hfits : Stand.SpreadsFit env.schema fragments ⟨place, scope.typeName, .spread name :: rest⟩)
    (bucket : Option String) (children : Children) :
    selectSpread env fragments depth place scope bucket name children =
      selectOne env others (selectSpread env others deep) place scope bucket
        (fragments.inlined depth name) children := by
  induction depth generalizing place scope bucket name rest children with
  | zero =>
      rw [Fragments.inlined, selectOne, selectSpread_of_undefined hends,
        selectSpread_of_undefined (hundefined name hends)]
  | succ depth ih =>
      rw [Fragments.inlined]
      cases hfragment : fragments.named? name with
      | none =>
          dsimp only
          rw [selectOne, selectSpread_of_undefined hfragment,
            selectSpread_of_undefined (hundefined name hfragment)]
      | some fragment =>
          have hscopes : spreadScope env.schema place scope bucket fragment.condition =
              inlineScope env.schema place scope bucket (some fragment.condition) :=
            spreadScope_eq_inlineScope (fun wrapper hwrapper =>
              hfits _ .refl wrapper name rest fragment hwrapper rfl hfragment) scope bucket
          rw [selectSpread, hfragment]
          dsimp only
          rw [selectOne, ← hscopes]
          refine Compile.lift_bind_congr fun target htarget => ?_
          cases target with
          | none => rfl
          | some target =>
              have hlower : depth ≤ fragments.depth := by omega
              exact select_replaceSpreads
                (fun scope name args inner rest hknown hinner hbelow =>
                  undefined?_unfold hundefined hlower hknown hinner hbelow)
                (fun place scope bucket name rest children hknown hname hbelow =>
                  ih hlower hknown hname hbelow bucket children)
                (hends fragment hfragment) (spreadScope_isKnown hscope htarget)
                (hfits.step (.of_spreadScope hfragment hscope htarget)) target.2 children

end Select

end Unfold

/-- A request whose fragments do not spread each other in a circle means what it means with
every spread replaced by the fragment's selections under its condition, provided that the
fragments spread on wrappers of connections are those of the wrappers' types: it compiles to
the same plan, with the same aliases, or to the same error. -/
theorem compile_unfolded {env : Environment} {request : Request}
    (hacyclic : request.fragments.Acyclic) (hfits : SpreadsFit env.schema request)
    (minify : Bool) : compile env minify request.unfolded = compile env minify request := by
  have hrewritten := request.unfolded_rewritten
  have hundefined : ∀ name, request.fragments.named? name = none →
      request.unfolded.fragments.named? name = none := by
    intro name hname
    rcases named?_rewritten hrewritten.fragments name with
      ⟨-, hnone⟩ | ⟨fragment, another, hsome, -, -⟩
    · exact hnone
    · rw [hname] at hsome
      cases hsome
  refine compile_rewritten hrewritten (fun type htype => compileOn_rewritten
    request.fragments.unfold_inRow hrewritten type fun field another hfield hother => ?_) minify
  have hroot := hfits field hfield
  have hscope : (Scope.mk request.parentType type none).IsKnown env.schema := htype
  have hends : ∀ name ∈ spreadNames field.selections,
      request.fragments.EndsWithin request.fragments.depth name :=
    fun name _ => hacyclic.endsWithin_depth name
  rw [rootNode, rootNode, hother.name, hother.args, hother.selections]
  refine (compileField_congr (undefined?_unfold hundefined le_rfl hscope hends hroot)
    (fun found place inner children hfound hrows hknown => ?_) none none).symm
  obtain ⟨definition, hdefinition, hsame⟩ := definition_of_field? hfound
  exact select_replaceSpreads
    (fun scope name args inner rest hbelow hinner hfits =>
      undefined?_unfold hundefined le_rfl hbelow hinner hfits)
    (fun place scope bucket name rest children hbelow hname hfits =>
      selectSpread_eq_inlined hundefined _ le_rfl hbelow hname hfits bucket children)
    hends hknown (hroot.step (.field htype hdefinition (hsame ▸ hrows))) none children

/-! ### Tags spread on their connection -/

section Steps

variable {schema : Schema} {fragments : Fragments} {stand next : Stand}

theorem Stand.spreadsFit_of_step (hfits : stand.Fits fragments)
    (hnext : ∀ next, Stand.Step schema fragments stand next →
      next.SpreadsFit schema fragments) : stand.SpreadsFit schema fragments := by
  intro later hlater
  rcases Relation.ReflTransGen.cases_head hlater with rfl | ⟨next, hstep, hafter⟩
  · exact hfits
  · exact hnext next hstep later hafter

theorem Stand.Step.spreadNames_eq_nil (hstep : Stand.Step schema fragments stand next)
    (h : spreadNames stand.selections = []) : spreadNames next.selections = [] := by
  cases hstep with
  | rest => exact (List.append_eq_nil_iff.mp h).2
  | field | inside | inline | inlineOnWrapper => exact (List.append_eq_nil_iff.mp h).1
  | spread | spreadOnWrapper => cases h

/-- Where nothing is spread everything fits. -/
theorem Stand.spreadsFit_of_spreadNames (h : spreadNames stand.selections = []) :
    stand.SpreadsFit schema fragments := by
  intro later hlater
  have hlast : spreadNames later.selections = [] := by
    induction hlater with
    | refl => exact h
    | tail _ hstep ih => exact hstep.spreadNames_eq_nil ih
  intro wrapper name rest fragment _ hselections _
  rw [hselections] at hlast
  cases hlast

/-- From a field of rows selections go on to those after it and to those below it. -/
theorem Stand.Step.field_cases {rowType name : String} {args : Arguments}
    {inner rest : List Selection} {type : TypeDefinition} {definition : FieldDefinition}
    {rows : String × Place}
    (hstep : Stand.Step schema fragments ⟨.rows, rowType, .field name args inner :: rest⟩ next)
    (htype : schema.type? rowType = some type) (hfield : type.field? name = some definition)
    (hrows : rowsOf? schema definition.type = some rows) :
    next = ⟨.rows, rowType, rest⟩ ∨ next = ⟨rows.2, rows.1, inner⟩ := by
  cases hstep with
  | rest => exact .inl rfl
  | field hfound hselected hbelow =>
      rw [htype] at hfound
      obtain rfl := Option.some.inj hfound
      rw [hfield] at hselected
      obtain rfl := Option.some.inj hselected
      rw [hrows] at hbelow
      obtain rfl := Option.some.inj hbelow
      exact .inr rfl
  | inside hinside => cases hinside

end Steps

/-- Posts with a page of their tags' names, in a fragment on the connection of tags and one on
tags. -/
def pagedTagsRequest : Request where
  parentType := "Query"
  fields := [⟨"posts", [], [.field "tags" [("first", .number (.int 2))] [.spread "Paged"]]⟩]
  fragments :=
    [("Named", ⟨"Tag", [.field "name" [] []]⟩),
     ("Paged", ⟨"Tags", [.field "edges" [] [.field "node" [] [.spread "Named"]]]⟩)]

theorem pagedTags_acyclic : pagedTagsRequest.fragments.Acyclic := by
  apply Fragments.acyclic_of_rank fun name => if name = "Paged" then 1 else 0
  rintro name other ⟨fragment, hfragment, hother⟩
  have hmem := Assoc.mem_of_get?_eq_some hfragment
  simp only [pagedTagsRequest, List.mem_cons, Prod.mk.injEq, List.not_mem_nil, or_false] at hmem
  rcases hmem with ⟨rfl, rfl⟩ | ⟨rfl, rfl⟩
  · cases hother
  · obtain rfl : other = "Named" := List.mem_singleton.mp hother
    decide

/-- The only fragment on a wrapper is that of the connection. -/
theorem pagedTags_spreadsFit :
    SpreadsFit (tagsSchema "tags" taggingOptions) pagedTagsRequest := by
  intro field hfield
  obtain rfl := Except.ok.inj hfield
  have hrows {selections : List Selection} {rowType : String} :
      Stand.Fits pagedTagsRequest.fragments ⟨.rows, rowType, selections⟩ := nofun
  have hnone {place : Place} {rowType : String} :
      Stand.SpreadsFit (tagsSchema "tags" taggingOptions) pagedTagsRequest.fragments
        ⟨place, rowType, []⟩ := Stand.spreadsFit_of_spreadNames rfl
  -- from the posts down to the names of their tags
  refine Stand.spreadsFit_of_step hrows fun next hstep => ?_
  rcases hstep.field_cases rfl rfl rfl with rfl | rfl
  · exact hnone
  refine Stand.spreadsFit_of_step hrows fun next hstep => ?_
  rcases hstep.field_cases rfl rfl rfl with rfl | rfl
  · exact hnone
  refine Stand.spreadsFit_of_step ?_ fun next hstep => ?_
  · intro wrapper name rest fragment hwrapper hselections hfragment
    obtain ⟨hname, -⟩ := List.cons.inj hselections
    obtain rfl := Selection.spread.inj hname
    obtain rfl := Option.some.inj hfragment
    exact Option.some.inj hwrapper
  cases hstep with
  | rest => exact hnone
  | spreadOnWrapper hwrapper hfragment =>
      obtain rfl := Option.some.inj hfragment
      refine Stand.spreadsFit_of_step (fun _ _ _ _ _ hselections => nomatch hselections)
        fun next hstep => ?_
      cases hstep with
      | rest => exact hnone
      | inside hinside =>
          obtain rfl := Option.some.inj hinside
          refine Stand.spreadsFit_of_step (fun _ _ _ _ _ hselections => nomatch hselections)
            fun next hstep => ?_
          cases hstep with
          | rest => exact hnone
          | inside hinside =>
              obtain rfl := Option.some.inj hinside
              refine Stand.spreadsFit_of_step hrows fun next hstep => ?_
              cases hstep with
              | rest => exact hnone
              | spread hfragment =>
                  obtain rfl := Option.some.inj hfragment
                  exact Stand.spreadsFit_of_spreadNames rfl
              | spreadOnWrapper hwrapper => cases hwrapper

/-- Tags spread on their connection, and their names on tags. -/
theorem compile_unfolded_pagedTags :
    pagedTagsRequest.fragments.Acyclic ∧
      SpreadsFit (tagsSchema "tags" taggingOptions) pagedTagsRequest ∧
      compile ⟨tagsSchema "tags" taggingOptions, .null⟩ false pagedTagsRequest.unfolded =
        .ok (postsPlan postTags) := by
  refine ⟨pagedTags_acyclic, pagedTags_spreadsFit, ?_⟩
  have hsame : compile ⟨tagsSchema "tags" taggingOptions, .null⟩ false pagedTagsRequest.unfolded =
      compile ⟨tagsSchema "tags" taggingOptions, .null⟩ false pagedTagsRequest :=
    compile_unfolded pagedTags_acyclic pagedTags_spreadsFit false
  rw [hsame]
  cbv

/-! ### A fragment on an interface of a connection -/

/-- Posts in a connection that is one of several kinds of pages. -/
def pagesSchema : Schema where
  types :=
    [("Pages", { tableType "" [("edges", plainField (.list (.named "PostEdge")))] with
        kind := .interface
        table := none
        possibleTypes := ["Posts"] }),
     ("Post", tableType "posts" [("title", plainField (.named "String"))]),
     ("PostEdge", { tableType "" [("node", plainField (.named "Post"))] with table := none }),
     ("Posts", { tableType "" [("edges", plainField (.list (.named "PostEdge"))),
        ("pageInfo", plainField (.named "PageInfo"))] with
        table := none
        interfaces := ["Pages"] }),
     ("Query", { tableType "" [("posts", plainField (.named "Posts"))] with table := none })]

/-- The titles of posts, in a fragment on pages of any kind. -/
def pagesRequest : Request where
  parentType := "Query"
  fields := [⟨"posts", [], [.spread "Titles"]⟩]
  fragments :=
    [("Titles", ⟨"Pages", [.field "edges" [] [.field "node" [] [.field "title" [] []]]]⟩)]

/-- A fragment on an interface of the connection is followed where it is spread, but not where
it stands without its name: the titles are fetched or not. -/
theorem exists_unfolded_otherwise :
    pagesRequest.fragments.Acyclic ∧ ∀ minify, ∃ root other,
      compile ⟨pagesSchema, .null⟩ minify pagesRequest = .ok root ∧
      compile ⟨pagesSchema, .null⟩ minify pagesRequest.unfolded = .ok other ∧
      root.shared.map Node.fieldName? = [some "id", some "title"] ∧
      other.shared.map Node.fieldName? = [some "id"] := by
  constructor
  · apply Fragments.acyclic_of_rank fun _ => 0
    rintro name other ⟨fragment, hfragment, hother⟩
    have hmem := Assoc.mem_of_get?_eq_some hfragment
    simp only [pagesRequest, List.mem_cons, Prod.mk.injEq, List.not_mem_nil, or_false] at hmem
    obtain ⟨rfl, rfl⟩ := hmem
    cases hother
  · intro minify
    cases minify <;> exact ⟨_, _, rfl, rfl, rfl, rfl⟩

end JoinPlan.Plan
