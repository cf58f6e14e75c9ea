import JoinPlan.Plan.Shape

/-!
# The columns of a shape

A property names a column, or is an object of properties; proofs follow that view.
-/

namespace JoinPlan

@[elab_as_elim, induction_eliminator]
theorem Property.induction {motive : Property → Prop}
    (column : ∀ aliasName, motive (.column aliasName))
    (object : ∀ (many : Bool) (properties : List (String × Property)),
      (∀ entry ∈ properties, motive entry.2) → motive (.object many properties))
    (property : Property) : motive property := by
  refine Property.rec (motive_1 := motive)
    (motive_2 := fun properties => ∀ entry ∈ properties, motive entry.2)
    (motive_3 := fun entry => motive entry.2) column object ?_ ?_ ?_ property
  · simp
  · intro entry rest hentry hrest other hother
    rcases List.mem_cons.mp hother with rfl | h
    · exact hentry
    · exact hrest other h
  · exact fun _ _ hproperty => hproperty

mutual

/-- The columns a property names, at any depth. -/
def Property.aliases : Property → List String
  | .column aliasName => [aliasName]
  | .object _ properties => propertiesAliases properties

def propertiesAliases : List (String × Property) → List String
  | [] => []
  | entry :: rest => entryAliases entry ++ propertiesAliases rest

def entryAliases : String × Property → List String
  | (_, property) => property.aliases

end

/-- The columns a shape names, at any depth. -/
def Shape.aliases (shape : Shape) : List String := propertiesAliases shape.properties

theorem propertiesAliases_eq_flatMap (properties : List (String × Property)) :
    propertiesAliases properties = properties.flatMap fun entry => entry.2.aliases := by
  induction properties with
  | nil => rfl
  | cons entry rest ih => rw [propertiesAliases, ih, List.flatMap_cons, entryAliases]

theorem mem_propertiesAliases {properties : List (String × Property)} {aliasName : String} :
    aliasName ∈ propertiesAliases properties ↔
      ∃ entry ∈ properties, aliasName ∈ entry.2.aliases := by
  rw [propertiesAliases_eq_flatMap, List.mem_flatMap]

end JoinPlan
