import JoinPlan.Proofs.Plan.Rewriting
import JoinPlan.Proofs.Plan.Scoping

/-!
# Fragments without a condition

A fragment without a name and without a condition stands for its selections: on an object,
on an interface or a union, and on the wrappers of a connection alike.  A request in which
such fragments are dissolved, wherever they stand, compiles to what it compiled to before,
with the same aliases or the same error.
-/

namespace JoinPlan

/-- Selections in which fragments without a condition are dissolved, at any places. -/
inductive Dissolves : List Selection → List Selection → Prop
  | nil : Dissolves [] []
  | field {inner others rest more : List Selection} (name : String) (args : Arguments)
      (hinner : Dissolves inner others) (hrest : Dissolves rest more) :
      Dissolves (.field name args inner :: rest) (.field name args others :: more)
  | inline {inner others rest more : List Selection} (condition : Option String)
      (hinner : Dissolves inner others) (hrest : Dissolves rest more) :
      Dissolves (.inline condition inner :: rest) (.inline condition others :: more)
  | spread {rest more : List Selection} (fragment : String) (hrest : Dissolves rest more) :
      Dissolves (.spread fragment :: rest) (.spread fragment :: more)
  | dissolve {inner others rest more : List Selection}
      (hinner : Dissolves inner others) (hrest : Dissolves rest more) :
      Dissolves (.inline none inner :: rest) (others ++ more)

namespace Dissolves

theorem append {first second others more : List Selection} (hfirst : Dissolves first others)
    (hsecond : Dissolves second more) : Dissolves (first ++ second) (others ++ more) := by
  induction hfirst with
  | nil => exact hsecond
  | field name args hinner _ _ ih => exact .field name args hinner ih
  | inline condition hinner _ _ ih => exact .inline condition hinner ih
  | spread fragment _ ih => exact .spread fragment ih
  | dissolve hinner _ _ ih =>
      rw [List.append_assoc]
      exact .dissolve hinner ih

theorem inRow : RewritesInRow Dissolves := ⟨.nil, append⟩

end Dissolves

namespace Plan

/-! ### Undefined fragments on wrappers -/

section Undefined

variable {fragments others : Fragments} {typeName : String}
  {field another : String → List Selection → Option String}

theorem undefinedAmong_dissolves {spread other : String → Option String}
    (hspread : ∀ name, spread name = other name)
    (hfield : ∀ name inner others, Dissolves inner others → field name inner = another name others)
    {selections dissolved : List Selection} (h : Dissolves selections dissolved) :
    undefinedAmong typeName field spread selections =
      undefinedAmong typeName another other dissolved := by
  induction h with
  | nil => rfl
  | field name args hinner _ _ ih =>
      rw [undefinedAmong, undefinedAmong, undefinedAt, undefinedAt, hfield name _ _ hinner, ih]
  | inline condition _ _ ihinner ih =>
      rw [undefinedAmong, undefinedAmong, undefinedAt, undefinedAt, ihinner, ih]
  | spread fragment _ ih =>
      rw [undefinedAmong, undefinedAmong, undefinedAt, undefinedAt, hspread, ih]
  | dissolve _ _ ihinner ih =>
      rw [undefinedAmong, undefinedAt, entersWrapper, if_pos rfl, undefinedAmong_append, ihinner,
        ih]

theorem undefinedBelow_dissolves (hfragments : fragments.Rewritten Dissolves others)
    (hfield : ∀ name inner others, Dissolves inner others → field name inner = another name others)
    (depth : Nat) (name : String) :
    undefinedBelow fragments typeName field depth name =
      undefinedBelow others typeName another depth name := by
  induction depth generalizing name with
  | zero => rfl
  | succ depth ih =>
      rw [undefinedBelow, undefinedBelow]
      rcases named?_rewritten hfragments name with
        ⟨hnone, hother⟩ | ⟨fragment, another, hsome, hother, hfragment⟩
      · rw [hnone, hother]
      · rw [hsome, hother]
        exact undefinedAmong_dissolves ih hfield hfragment.selections

theorem undefinedOn_dissolves (hfragments : fragments.Rewritten Dissolves others)
    (hfield : ∀ name inner others, Dissolves inner others → field name inner = another name others)
    {selections dissolved : List Selection} (h : Dissolves selections dissolved) :
    undefinedOn fragments typeName field selections =
      undefinedOn others typeName another dissolved := by
  rw [undefinedOn, undefinedOn, depth_rewritten hfragments]
  exact undefinedAmong_dissolves (undefinedBelow_dissolves hfragments hfield _) hfield h

theorem undefined?_dissolves (env : Environment) (scope : Scope) (name : String)
    (hfragments : fragments.Rewritten Dissolves others) {selections dissolved : List Selection}
    (h : Dissolves selections dissolved) :
    scope.undefined? env fragments name selections =
      scope.undefined? env others name dissolved := by
  have hconnection (connectionType edgeType : String) :
      undefinedInConnection fragments connectionType edgeType selections =
        undefinedInConnection others connectionType edgeType dissolved := by
    have hedges : ∀ name inner dissolved, Dissolves inner dissolved →
        (if name = "edges" then undefinedOn fragments edgeType (fun _ _ => none) inner else none) =
          if name = "edges" then undefinedOn others edgeType (fun _ _ => none) dissolved
          else none := by
      intro name inner dissolved hinner
      rw [undefinedOn_dissolves hfragments (fun _ _ _ _ => rfl) hinner]
    rw [undefinedInConnection, undefinedInConnection,
      undefinedOn_dissolves hfragments (fun _ _ _ _ => rfl) h,
      undefinedOn_dissolves hfragments hedges h]
  have hplace (place : Place) :
      undefinedIn fragments selections place = undefinedIn others dissolved place := by
    cases place with
    | rows | edges typeName => rfl
    | connection connectionType edgeType => exact hconnection connectionType edgeType
  simp only [Scope.undefined?, undefinedInField, hplace]

end Undefined

/-! ### Selections -/

/-- A fragment without a condition applies wherever it stands, and changes neither the scope
nor the bucket. -/
theorem inlineScope_none {schema : Schema} {scope : Scope} (hscope : scope.IsKnown schema)
    (place : Place) (bucket : Option String) :
    inlineScope schema place scope bucket none = .ok (some (scope, bucket)) := by
  cases place with
  | edges typeName | connection typeName edgeType => rfl
  | rows =>
      rw [inlineScope, rowsScope]
      split
      · rfl
      · rename_i hkind
        rw [Option.getD_none, conditionScope, hscope]
        dsimp only
        rw [if_neg hkind]
        rfl

section Select

variable {env : Environment} {fragments others : Fragments}

theorem select_dissolves (hfragments : fragments.Rewritten Dissolves others)
    {spread other : SpreadCompiler}
    (hspread : ∀ place scope bucket name children, scope.IsKnown env.schema →
      spread place scope bucket name children = other place scope bucket name children)
    {selections dissolved : List Selection} (h : Dissolves selections dissolved) (place : Place)
    {scope : Scope} (hscope : scope.IsKnown env.schema) (bucket : Option String)
    (children : Children) :
    select env fragments spread place scope bucket selections children =
      select env others other place scope bucket dissolved children := by
  induction h generalizing place scope bucket children with
  | nil => rw [select, select]
  | field name args hinner hrest ihinner ih =>
      refine select_cons_congr (selectOne_field_congr ?_ ?_ ?_) (ih place hscope bucket)
      · exact fun _ => undefined?_dissolves env scope name hfragments hinner
      · exact fun _ _ standing below children _ _ hknown => ihinner standing hknown none children
      · exact fun inside _ => ihinner inside hscope bucket children
  | inline condition hinner hrest ihinner ih =>
      refine select_cons_congr (selectOne_inline_congr fun target htarget => ?_)
        (ih place hscope bucket)
      exact ihinner place (inlineScope_isKnown hscope htarget) target.2 children
  | spread fragment hrest ih =>
      refine select_cons_congr ?_ (ih place hscope bucket)
      rw [selectOne, selectOne, hspread _ _ _ _ _ hscope]
  | dissolve hinner hrest ihinner ih =>
      rw [select, selectOne, inlineScope_none hscope, Compile.lift_ok_bind, select_append]
      dsimp only
      rw [ihinner place hscope]
      congr 1
      funext between
      exact ih place hscope bucket between

theorem selectSpread_dissolves (hfragments : fragments.Rewritten Dissolves others) (depth : Nat)
    (place : Place) (scope : Scope) (bucket : Option String) (name : String)
    (children : Children) (hscope : scope.IsKnown env.schema) :
    selectSpread env fragments depth place scope bucket name children =
      selectSpread env others depth place scope bucket name children := by
  induction depth generalizing place scope bucket name children with
  | zero => rfl
  | succ depth ih =>
      rw [selectSpread, selectSpread]
      rcases named?_rewritten hfragments name with
        ⟨hnone, hother⟩ | ⟨fragment, another, hsome, hother, hfragment⟩
      · rw [hnone, hother]
      · rw [hsome, hother]
        dsimp only
        rw [hfragment.condition]
        refine Compile.lift_bind_congr fun target htarget => ?_
        cases target with
        | none => rfl
        | some target =>
            exact select_dissolves hfragments ih hfragment.selections place
              (spreadScope_isKnown hscope htarget) target.2 children

end Select

/-- Dissolving fragments without a condition, anywhere in a request, leaves what the request
and the node fetches of it compile to. -/
theorem compile_dissolves (env : Environment) (minify : Bool) {request other : Request}
    (h : request.Rewritten Dissolves other) :
    compile env minify other = compile env minify request ∧
      ∀ dialect typeName found,
        compileNode env dialect minify typeName found other =
          compileNode env dialect minify typeName found request := by
  have hon (type : TypeDefinition) : compileOn env other type = compileOn env request type := by
    refine compileOn_rewritten Dissolves.inRow h type fun field another _ hfield => ?_
    rw [rootNode, rootNode, hfield.name, hfield.args]
    refine (compileField_congr (undefined?_dissolves env _ field.name h.fragments
      hfield.selections) (fun _ place inner children _ _ hknown => ?_) none none).symm
    rw [selectAll, selectAll, depth_rewritten h.fragments]
    exact select_dissolves h.fragments (selectSpread_dissolves h.fragments _) hfield.selections
      place hknown none children
  exact ⟨compile_rewritten h (fun type _ => hon type) minify,
    fun dialect typeName found => compileNode_rewritten h hon dialect minify typeName found⟩

/-- Posts with their tags' names, the names in a fragment. -/
def namedTagsRequest : Request where
  parentType := "Query"
  fields := [⟨"posts", [], [.field "tags" [("first", .number (.int 2))]
    [.field "edges" [] [.field "node" [] [.spread "Named"]]]]⟩]
  fragments := [("Named", ⟨"Tag", [.field "name" [] []]⟩)]

/-- The same with fragments without a condition on posts, on the wrappers of their tags and in
the fragment. -/
def wrappedTagsRequest : Request where
  parentType := "Query"
  fields := [⟨"posts", [], [.inline none [.field "tags" [("first", .number (.int 2))]
    [.inline none [.field "edges" [] [.inline none [.field "node" [] [.spread "Named"]]]]]]]⟩]
  fragments := [("Named", ⟨"Tag", [.inline none [.inline none [.field "name" [] []]]]⟩)]

theorem compile_namedTags :
    compile ⟨tagsSchema "tags" taggingOptions, .null⟩ false namedTagsRequest =
      .ok (postsPlan postTags) := by
  cbv

theorem compile_dissolves_wrappedTags :
    wrappedTagsRequest.Rewritten Dissolves namedTagsRequest ∧
      compile ⟨tagsSchema "tags" taggingOptions, .null⟩ false wrappedTagsRequest =
        .ok (postsPlan postTags) := by
  have hdissolves : wrappedTagsRequest.Rewritten Dissolves namedTagsRequest := by
    refine ⟨rfl, .cons ⟨rfl, rfl, ?_⟩ .nil, .cons ⟨rfl, rfl, ?_⟩ .nil⟩
    · exact .dissolve (.field _ _ (.dissolve (.field _ _ (.dissolve (.field _ _ (.spread _ .nil)
        .nil) .nil) .nil) .nil) .nil) .nil
    · exact .dissolve (.dissolve (.field _ _ .nil .nil) .nil) .nil
  refine ⟨hdissolves, ?_⟩
  rw [← (compile_dissolves ⟨tagsSchema "tags" taggingOptions, .null⟩ false hdissolves).1]
  exact compile_namedTags

end Plan

end JoinPlan
