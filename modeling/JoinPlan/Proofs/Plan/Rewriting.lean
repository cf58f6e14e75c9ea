import JoinPlan.Plan.Compile
import JoinPlan.Proofs.Plan.FieldKinds
import Mathlib.Data.List.Forall2

/-!
# Requests with other selections

A request can be written with other selections: each list of them, of an occurrence of the
requested field or of a fragment, is replaced by one it is related to.  Such requests ask for
the same field of the same type, and compile alike if the merged field does.
-/

namespace JoinPlan

variable (rewrites : List Selection → List Selection → Prop)

structure RequestedField.Rewritten (field other : RequestedField) : Prop where
  name : other.name = field.name
  args : other.args = field.args
  selections : rewrites field.selections other.selections

structure Fragment.Rewritten (fragment other : Fragment) : Prop where
  condition : other.condition = fragment.condition
  selections : rewrites fragment.selections other.selections

/-- Fragments under the same names, each with other selections. -/
def Fragments.Rewritten (fragments others : Fragments) : Prop :=
  List.Forall₂ (fun entry other => other.1 = entry.1 ∧ entry.2.Rewritten rewrites other.2)
    fragments others

structure Request.Rewritten (request other : Request) : Prop where
  parentType : other.parentType = request.parentType
  fields : List.Forall₂ (RequestedField.Rewritten rewrites) request.fields other.fields
  fragments : request.fragments.Rewritten rewrites other.fragments

/-- A relation of lists that is closed under putting them one after the other. -/
structure RewritesInRow : Prop where
  nil : rewrites [] []
  append {first second others more : List Selection} (hfirst : rewrites first others)
    (hsecond : rewrites second more) : rewrites (first ++ second) (others ++ more)

namespace Plan

variable {rewrites}

theorem named?_rewritten {fragments others : Fragments}
    (h : fragments.Rewritten rewrites others) (name : String) :
    (fragments.named? name = none ∧ others.named? name = none) ∨
      ∃ fragment other, fragments.named? name = some fragment ∧
        others.named? name = some other ∧ fragment.Rewritten rewrites other := by
  unfold Fragments.named?
  induction h with
  | nil => exact .inl ⟨rfl, rfl⟩
  | @cons entry other rest more hentry _ ih =>
      obtain ⟨key, fragment⟩ := entry
      obtain ⟨otherKey, otherFragment⟩ := other
      obtain ⟨rfl, hfragment⟩ := hentry
      rw [Assoc.get?, Assoc.get?]
      split
      · exact .inr ⟨_, _, rfl, rfl, hfragment⟩
      · exact ih

theorem depth_rewritten {fragments others : Fragments}
    (h : fragments.Rewritten rewrites others) : others.depth = fragments.depth := by
  rw [Fragments.depth, Fragments.depth, h.length_eq]

theorem flatMap_rewritten (hrow : RewritesInRow rewrites) {fields others : List RequestedField}
    (h : List.Forall₂ (RequestedField.Rewritten rewrites) fields others) :
    rewrites (fields.flatMap (·.selections)) (others.flatMap (·.selections)) := by
  induction h with
  | nil => exact hrow.nil
  | cons hfield _ ih => exact hrow.append hfield.selections ih

theorem mergedField_rewritten (hrow : RewritesInRow rewrites) {request other : Request}
    (h : request.Rewritten rewrites other) :
    (request.fields = [] ∧ other.fields = []) ∨
      ∃ field another, mergedField request = .ok field ∧ mergedField other = .ok another ∧
        field.Rewritten rewrites another := by
  have hfields := h.fields
  unfold mergedField
  cases hrequest : request.fields with
  | nil =>
      rw [hrequest] at hfields
      exact .inl ⟨rfl, List.forall₂_nil_left_iff.mp hfields⟩
  | cons first rest =>
      rw [hrequest] at hfields
      obtain ⟨another, more, hfirst, hrest, hother⟩ := List.forall₂_cons_left_iff.mp hfields
      rw [hother]
      exact .inr ⟨_, _, rfl, rfl, hfirst.name, hfirst.args,
        hrow.append hfirst.selections (flatMap_rewritten hrow hrest)⟩

/-- The node of the field a request asks for. -/
def rootNode (env : Environment) (fragments : Fragments) (scope : Scope)
    (field : RequestedField) : Compile Node :=
  compileField env fragments scope false none none field.name field.args field.selections
    (selectAll env fragments field.selections)

theorem Compile.lift_request_ok_bind {α β : Type} (value : α) (next : α → Compile β) :
    (liftM (.ok value : Except RequestError α) >>= next : Compile β) = next value := rfl

theorem Compile.lift_request_error_bind {α β : Type} (error : RequestError)
    (next : α → Compile β) :
    (liftM (.error error : Except RequestError α) >>= next : Compile β) =
      liftM (.error error : Except RequestError β) := rfl

section Compile

variable {env : Environment} {request other : Request}

/-- A request compiles alike on a type if the field it merges to does. -/
theorem compileOn_rewritten (hrow : RewritesInRow rewrites) (h : request.Rewritten rewrites other)
    (type : TypeDefinition)
    (hroot : ∀ field another, mergedField request = .ok field →
      field.Rewritten rewrites another →
      rootNode env other.fragments ⟨request.parentType, type, none⟩ another =
        rootNode env request.fragments ⟨request.parentType, type, none⟩ field) :
    compileOn env other type = compileOn env request type := by
  rcases mergedField_rewritten hrow h with ⟨hnone, hother⟩ | ⟨field, another, hfield, hother, hrel⟩
  · rw [compileOn, compileOn, mergedField, mergedField, hnone, hother]
    dsimp only
    rw [Compile.lift_request_error_bind, Compile.lift_request_error_bind]
  · have hnode := hroot field another hfield hrel
    unfold rootNode at hnode
    rw [compileOn, compileOn, hfield, hother, Compile.lift_request_ok_bind,
      Compile.lift_request_ok_bind]
    dsimp only
    rw [h.parentType, hnode, hrel.name]

theorem compile_rewritten (h : request.Rewritten rewrites other)
    (hon : ∀ type, env.schema.type? request.parentType = some type →
      compileOn env other type = compileOn env request type) (minify : Bool) :
    compile env minify other = compile env minify request := by
  unfold compile compileWith
  rw [h.parentType]
  cases htype : env.schema.type? request.parentType with
  | none => rfl
  | some type =>
      dsimp only
      rw [hon type htype]

theorem compileNode_rewritten (h : request.Rewritten rewrites other)
    (hon : ∀ type, compileOn env other type = compileOn env request type) (dialect : Dialect)
    (minify : Bool) (typeName : String) (found : NodeCondition) :
    compileNode env dialect minify typeName found other =
      compileNode env dialect minify typeName found request := by
  have hfields := h.fields
  unfold compileNode compileNodeWith
  cases hrequest : request.fields with
  | nil =>
      rw [hrequest] at hfields
      rw [List.forall₂_nil_left_iff.mp hfields]
  | cons first rest =>
      rw [hrequest] at hfields
      obtain ⟨another, more, hfirst, -, hother⟩ := List.forall₂_cons_left_iff.mp hfields
      rw [hother]
      simp only [hon, hfirst.name]

end Compile

end Plan

end JoinPlan
